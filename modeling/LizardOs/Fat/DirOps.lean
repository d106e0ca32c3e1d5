import LizardOs.Fat.Extend
import LizardOs.Fat.Namespace

/-!
# What the namespace operations do on a mounted volume

One equation for each of `fat16_dir_alloc_slot`, `fat16_create`, `fat16_mkdir`, `fat16_unlink`, `fat16_rmdir`
and `fat16_truncate`: the value it returns and the volume it leaves, in terms of the primitive updates of
`Layout`.  The loops and error paths of the source are gone here; what is left is which slot is chosen and
which chain is freed.
-/

namespace LizardOs.Fat

open LizardOs.Lib

variable {fs : Fat16} {d : ℕ} {l : List ℕ}

theorem Fat16.Owns.dirChain (h : fs.Owns d l) : fs.DirChain d l := by
  rcases h with ⟨rfl, rfl⟩ | h
  · exact .inl ⟨rfl, rfl⟩
  · obtain ⟨t, -, hc⟩ := h.chain
    exact .inr ⟨h.head_ne_zero, t, hc⟩

theorem Fat16.Owns.min_le (h : fs.Owns d l) {x : ℕ} (hx : x ∈ l) : FAT16_CLUSTER_MIN ≤ x := by
  rcases h with ⟨-, rfl⟩ | h
  · simp at hx
  · exact h.min_le hx

theorem Fat16.Owns.inside (h : fs.Owns d l) {x : ℕ} (hx : x ∈ l) : x ≤ fs.header.lastCluster := by
  rcases h with ⟨-, rfl⟩ | h
  · simp at hx
  · exact h.inside hx

theorem Fat16.Owns.ne_free (h : fs.Owns d l) {x : ℕ} (hx : x ∈ l) :
    fs.fatAt x ≠ FAT16_FREE_CLUSTER := by
  rcases h with ⟨-, rfl⟩ | h
  · simp at hx
  · exact h.ne_free hx

theorem Fat16.Owns.unique {l' : List ℕ} (h : fs.Owns d l) (h' : fs.Owns d l') : l = l' := by
  rcases h with ⟨rfl, rfl⟩ | h
  · rcases h' with ⟨-, rfl⟩ | h'
    · rfl
    · exact absurd rfl h'.head_ne_zero
  · rcases h' with ⟨rfl, -⟩ | h'
    · exact absurd rfl h.head_ne_zero
    · exact h.unique h'

theorem Fat16.Owns.congr {fs' : Fat16} (h : fs.Owns d l) (hh : fs'.header = fs.header)
    (hfat : ∀ x ∈ l, fs'.fatAt x = fs.fatAt x) : fs'.Owns d l := by
  rcases h with h | h
  · exact .inl h
  · exact .inr (h.congr hh hfat)

/-! ### Choosing a slot -/

theorem lastClusterFrom_ok (hm : fs.Mounted) {t : ℕ} {m : List ℕ} : ∀ {x y n : ℕ},
    Path fs.fatAt fat16ClusterValid y m t → fat16ClusterValid t = false →
    (∀ z ∈ m, z ≤ fs.header.lastCluster) → m.length < n →
    ∃ z, (x :: m).getLast? = some z ∧ lastClusterFrom n x y fs = some (z, fs) := by
  induction m with
  | nil =>
    intro x y n hp ht _ hn
    obtain ⟨k, rfl⟩ : ∃ k, n = k + 1 := ⟨n - 1, by simp at hn; omega⟩
    rw [path_nil] at hp
    subst hp
    refine ⟨x, rfl, ?_⟩
    simp only [lastClusterFrom, ht, Bool.false_eq_true, if_false, Prog.pure_apply]
  | cons a m ih =>
    intro x y n hp ht hin hn
    obtain ⟨k, rfl⟩ : ∃ k, n = k + 1 := ⟨n - 1, by simp at hn; omega⟩
    obtain ⟨rfl, hok, hp⟩ := hp
    obtain ⟨z, hz, hrun⟩ := ih (x := y) (n := k) hp ht (fun w hw => hin w (by simp [hw]))
      (by simp at hn; omega)
    refine ⟨z, by rw [List.getLast?_cons_cons]; exact hz, ?_⟩
    simp only [lastClusterFrom, hok, if_true, Prog.bind_apply,
      fat16NextCluster_ok hm (hin y (by simp)), Prog.obind_some]
    exact hrun

/-- Append a zeroed cluster `a` to the chain that ends in `x`. -/
def Fat16.grow (fs : Fat16) (x a : ℕ) : Fat16 :=
  (fs.link x a).zeroed fs.header.spc (fs.header.clusterToLba a)

@[simp] theorem Fat16.grow_header (fs : Fat16) (x a : ℕ) : (fs.grow x a).header = fs.header := by
  rw [Fat16.grow, Fat16.zeroed_header, Fat16.link_header]

theorem Fat16.zeroed_sectorsOnly (fs : Fat16) (n lba : ℕ) :
    fs.SectorsOnly (fs.zeroed n lba) lba n where
  rest := fs.zeroed_rest n lba
  disk := fun b hb => by rw [fs.zeroed_disk, if_neg hb]

/-- Growing a directory prolongs its chain. -/
theorem Fat16.Extends.of_grow {x a : ℕ} (hm : fs.Mounted) (h : fs.Heads d l)
    (hx : l.getLast? = some x) (hmin : FAT16_CLUSTER_MIN ≤ a) (ha : a ≤ fs.header.lastCluster)
    (hfree : fs.fatAt a = FAT16_FREE_CLUSTER) : fs.Extends (fs.grow x a) d l (l ++ [a]) := by
  have hlink := Fat16.Extends.of_link hm h hx hmin ha hfree
  refine hlink.trans ?_
  apply Fat16.SectorsOnly.toExtends (x := a) _ hlink.mounted hlink.heads (by simp)
  rw [Fat16.link_header]
  exact Fat16.zeroed_sectorsOnly _ _ _

/-- The appended cluster holds no entry. -/
theorem Fat16.grow_entryAt (hs : fs.header.Sound) {x a : ℕ} {loc : DirLoc}
    (hloc : loc ∈ fs.header.clusterSlots a) :
    (fs.grow x a).entryAt loc = Fat16Directory.zero := by
  obtain ⟨h1, h2, -⟩ := (mem_clusterSlots hs).mp hloc
  apply Fat16.entryAt_of_zero
  rw [Fat16.grow, Fat16.zeroed_disk, if_pos ⟨h1, h2⟩]

/-- Growing a directory touches no slot outside the appended cluster. -/
theorem Fat16.grow_entryAt_other (hs : fs.header.Sound) {x a e : ℕ} {m : List ℕ} {loc : DirLoc}
    (hx : x ≤ fs.header.lastCluster) (hmin : FAT16_CLUSTER_MIN ≤ a)
    (ha : a ≤ fs.header.lastCluster) (hm : ∀ z ∈ m, FAT16_CLUSTER_MIN ≤ z) (ham : a ∉ m)
    (hloc : loc ∈ fs.header.dirSlots e m) : (fs.grow x a).entryAt loc = fs.entryAt loc := by
  have hp := dirSlots_proper hs hm hloc
  unfold Fat16.entryAt
  rw [Fat16.grow, Fat16.zeroed_disk, if_neg, Fat16.link_disk hs hx ha hp.root_le]
  rintro ⟨h1, h2⟩
  exact dirSlots_disjoint hs hm hmin ham hloc
    (show loc.lba - fs.header.clusterToLba a < fs.header.spc by omega) (by omega)

/-- The slot `fat16_dir_alloc_slot` hands out, and the volume it leaves: the first reusable slot, or the first
slot of a cluster appended to a subdirectory without one. -/
def Fat16.SlotFor (fs : Fat16) (d : ℕ) (l : List ℕ) (loc : DirLoc) (fs' : Fat16) : Prop :=
  ((fs.header.dirSlots d l).find? fs.reusable = some loc ∧ fs' = fs) ∨
  ((fs.header.dirSlots d l).find? fs.reusable = none ∧ d ≠ 0 ∧
    ∃ x a, l.getLast? = some x ∧ FAT16_CLUSTER_MIN ≤ a ∧ a ≤ fs.header.lastCluster ∧
      fs.fatAt a = FAT16_FREE_CLUSTER ∧ loc = ⟨fs.header.clusterToLba a, 0⟩ ∧ fs' = fs.grow x a)

/-- No slot can be handed out: the root directory is full, or a subdirectory and the volume are. -/
def Fat16.NoSlot (fs : Fat16) (d : ℕ) (l : List ℕ) : Prop :=
  (fs.header.dirSlots d l).find? fs.reusable = none ∧ (d = 0 ∨ fs.Full)

theorem fat16DirAllocSlot_ok (hm : fs.Mounted) (hown : fs.Owns d l) :
    (∃ loc fs', fs.SlotFor d l loc fs' ∧ fat16DirAllocSlot d fs = some (some loc, fs')) ∨
    (fs.NoSlot d l ∧ fat16DirAllocSlot d fs = some (none, fs)) := by
  have hscan := fat16DirScan_ok hm hown.dirChain none (freeSlot_pure _)
  rw [foldStop_freeSlot] at hscan
  cases hfind : (fs.header.dirSlots d l).find? fs.reusable with
  | some loc =>
    left
    refine ⟨loc, fs, .inl ⟨hfind, rfl⟩, ?_⟩
    simp only [hfind] at hscan
    simp only [fat16DirAllocSlot, appendCluster, Prog.bind_apply, hscan, Prog.obind_some, if_true, Prog.pure_apply]
  | none =>
    simp only [hfind] at hscan
    have h01 : ¬((0 : ℤ) = 1) := by decide
    rcases hown with ⟨rfl, rfl⟩ | hheads
    · right
      refine ⟨⟨hfind, .inl rfl⟩, ?_⟩
      simp only [fat16DirAllocSlot, appendCluster, Prog.bind_apply, hscan, Prog.obind_some, h01, if_false, if_true,
        Prog.pure_apply]
    · -- the end of the chain, then a fresh cluster behind it
      have hd := hheads.head_ne_zero
      obtain ⟨m, rfl⟩ := hheads.head
      obtain ⟨t, -, hc⟩ := hheads.chain
      obtain ⟨x, hx, hlast⟩ : ∃ x, (d :: m).getLast? = some x ∧
          lastClusterFrom CLUSTER_STEPS d (fs.fatAt d) fs = some (x, fs) := by
        have hlen := hheads.length_lt
        revert hlen
        generalize CLUSTER_STEPS = steps
        intro hlen
        exact lastClusterFrom_ok hm hc.path.2.2 hc.ended
          (fun z hz => hc.inside z (by simp [hz])) (by simp at hlen; omega)
      have hnext := fat16NextCluster_ok hm (hc.inside d (by simp))
      rcases fat16ClusterAlloc_ok hm with ⟨a, hmin, hain, hfree, halloc⟩ | ⟨hfull, halloc⟩
      · left
        have hma : (fs.setFat a FAT16_EOC).Mounted := Fat16.setFat_mounted hm hain
        have hset := fat16FatSet_ok hma x a
        have hmx : (fs.link x a).Mounted :=
          Fat16.link_mounted hm (hc.inside x (List.mem_of_getLast? hx)) hain
        have hzero := zeroSectors_ok hmx.noFaults fs.header.spc (fs.header.clusterToLba a)
        refine ⟨_, _, .inr ⟨hfind, hd, x, a, hx, hmin, hain, hfree, rfl, rfl⟩, ?_⟩
        unfold Fat16.link at hzero
        unfold fat16DirAllocSlot
        revert hlast
        generalize CLUSTER_STEPS = steps
        intro hlast
        simp only [appendCluster, Prog.bind_apply, hscan, Prog.obind_some, h01, if_false, hd, hnext, hlast, halloc,
          hset, if_true, Prog.get_apply, Fat16.setFat_header, hzero, Prog.pure_apply]
        rfl
      · right
        refine ⟨⟨hfind, .inr hfull⟩, ?_⟩
        unfold fat16DirAllocSlot
        revert hlast
        generalize CLUSTER_STEPS = steps
        intro hlast
        simp only [appendCluster, Prog.bind_apply, hscan, Prog.obind_some, h01, if_false, hd, hnext, hlast, halloc,
          Prog.pure_apply]

/-! ### Creating -/

theorem fat16MakeInode_ok (hf : fs.NoFaults) (ent : Fat16Directory) (loc : DirLoc) :
    fat16MakeInode ent loc fs = some (some (Inode.ofEntry ent loc), fs) := by
  simp only [fat16MakeInode, Prog.bind_apply, zalloc_ok hf, Prog.obind_some, if_true,
    Prog.pure_apply]

theorem Fat16.SlotFor.header {loc : DirLoc} {fs' : Fat16} (h : fs.SlotFor d l loc fs') :
    fs'.header = fs.header := by
  rcases h with ⟨-, rfl⟩ | ⟨-, -, x, a, -, -, -, -, -, rfl⟩
  · rfl
  · exact Fat16.grow_header fs x a

theorem Fat16.grow_mounted {x a : ℕ} (hm : fs.Mounted) (hx : x ≤ fs.header.lastCluster)
    (hmin : FAT16_CLUSTER_MIN ≤ a) (ha : a ≤ fs.header.lastCluster) : (fs.grow x a).Mounted := by
  apply Fat16.zeroed_mounted (Fat16.link_mounted hm hx ha)
  rw [Fat16.link_header]
  exact FatHeader.rootDir_le_clusterToLba hmin

theorem Fat16.SlotFor.mounted {loc : DirLoc} {fs' : Fat16} (h : fs.SlotFor d l loc fs')
    (hm : fs.Mounted) (hown : fs.Owns d l) : fs'.Mounted := by
  rcases h with ⟨-, rfl⟩ | ⟨-, -, x, a, hx, hmin, ha, -, -, rfl⟩
  · exact hm
  · exact Fat16.grow_mounted hm (hown.inside (List.mem_of_getLast? hx)) hmin ha

/-- Why a name cannot be entered into a directory. -/
def Fat16.Refused (fs : Fat16) (d : ℕ) (l : List ℕ) (name : CStr) (ent : Option Fat16Directory) : Prop :=
  fs.readOnly = true ∨ ent = none ∨ fs.findIn name (fs.header.dirSlots d l) ≠ none

theorem fat16Create_refused {now : DosStamp} {dir : Inode} {name : CStr} (hm : fs.Mounted)
    (hown : fs.Owns dir.ent.cluster l)
    (href : fs.Refused dir.ent.cluster l name (fat16FillEntry now name FAT16_ATTR_ARCHIVE)) :
    fat16Create now dir name fs = some (none, fs) := by
  have hfind := fat16DirFind_ok hm hown.dirChain name
  by_cases hro : fs.readOnly = true
  · simp only [fat16Create, enterName, createEntry, placeEntry, Prog.bind_apply, Prog.get_apply, Prog.obind_some, hro,
      if_true, Prog.pure_apply]
  cases hent : fat16FillEntry now name FAT16_ATTR_ARCHIVE with
  | none =>
    simp only [fat16Create, enterName, Prog.bind_apply, Prog.get_apply, Prog.obind_some, hro, hent, if_false,
      Bool.false_eq_true, Prog.pure_apply]
  | some ent =>
    obtain ⟨loc, hloc⟩ : ∃ loc, fs.findIn name (fs.header.dirSlots dir.ent.cluster l) = some loc := by
      rcases href with h | h | h
      · exact absurd h hro
      · rw [hent] at h
        cases h
      · exact Option.ne_none_iff_exists'.mp h
    simp only [hloc, Option.map_some] at hfind
    simp only [fat16Create, enterName, createEntry, placeEntry, Prog.bind_apply, Prog.get_apply, Prog.obind_some, hro,
      hent, if_false, Bool.false_eq_true, hfind, Prog.pure_apply]

/-- **`fat16_create`** of a name that is not refused: the entry goes into the slot handed out. -/
theorem fat16Create_ok {now : DosStamp} {dir : Inode} {name : CStr} {ent : Fat16Directory}
    (hm : fs.Mounted) (hown : fs.Owns dir.ent.cluster l) (hro : fs.readOnly = false)
    (hent : fat16FillEntry now name FAT16_ATTR_ARCHIVE = some ent)
    (hnew : fs.findIn name (fs.header.dirSlots dir.ent.cluster l) = none) :
    (∃ loc fs', fs.SlotFor dir.ent.cluster l loc fs' ∧
      fat16Create now dir name fs = some (some (Inode.ofEntry ent loc), fs'.setEntry loc ent)) ∨
    (fs.NoSlot dir.ent.cluster l ∧ fat16Create now dir name fs = some (none, fs)) := by
  have hfind := fat16DirFind_ok hm hown.dirChain name
  simp only [hnew, Option.map_none] at hfind
  rcases fat16DirAllocSlot_ok hm hown with ⟨loc, fs', hslot, halloc⟩ | ⟨hno, halloc⟩
  · left
    have hm' := hslot.mounted hm hown
    have hf : (fs'.setEntry loc ent).NoFaults := Fat16.setSector_noFaults hm'.noFaults _ _
    refine ⟨loc, fs', hslot, ?_⟩
    simp only [fat16Create, enterName, createEntry, placeEntry, Prog.bind_apply, Prog.get_apply, Prog.obind_some, hro,
      hent, if_false, Bool.false_eq_true, hfind, halloc, fat16DirWrite_ok hm'.noFaults, if_true,
      fat16MakeInode_ok hf]
  · right
    refine ⟨hno, ?_⟩
    simp only [fat16Create, enterName, createEntry, placeEntry, Prog.bind_apply, Prog.get_apply, Prog.obind_some, hro,
      hent, if_false, Bool.false_eq_true, hfind, halloc, Prog.pure_apply]

/-! ### Making a directory -/

/-- The volume with the cluster `c` laid out as a new, empty subdirectory of the directory `d`. -/
def Fat16.newDir (fs : Fat16) (now : DosStamp) (d c : ℕ) : Fat16 :=
  ((fs.setFat c FAT16_EOC).zeroed (fs.header.spc - 1) (fs.header.clusterToLba c + 1)).setSector
    (fs.header.clusterToLba c) (dotSector now d c)

/-- The entry of a new subdirectory with first cluster `c`. -/
def dirEntry (ent : Fat16Directory) (c : ℕ) : Fat16Directory :=
  { ent with firstClusterLow := UInt16.ofNat c }

@[simp] theorem Fat16.newDir_header (fs : Fat16) (now : DosStamp) (d c : ℕ) :
    (fs.newDir now d c).header = fs.header := by
  rw [Fat16.newDir, Fat16.setSector_header, Fat16.zeroed_header, Fat16.setFat_header]

@[simp] theorem Fat16.newDir_readOnly (fs : Fat16) (now : DosStamp) (d c : ℕ) :
    (fs.newDir now d c).readOnly = fs.readOnly := by
  rw [Fat16.newDir, Fat16.setSector_readOnly, Fat16.zeroed_readOnly, Fat16.setFat_readOnly]

theorem Fat16.newDir_mounted (now : DosStamp) {c : ℕ} (hm : fs.Mounted)
    (hmin : FAT16_CLUSTER_MIN ≤ c) (hc : c ≤ fs.header.lastCluster) :
    (fs.newDir now d c).Mounted := by
  have hroot := FatHeader.rootDir_le_clusterToLba (h := fs.header) hmin
  apply Fat16.setSector_mounted
  · apply Fat16.zeroed_mounted (Fat16.setFat_mounted hm hc)
    rw [Fat16.setFat_header]
    omega
  · rw [Fat16.zeroed_header, Fat16.setFat_header]
    exact hroot

theorem Fat16.newDir_fatAt {now : DosStamp} {c x : ℕ} (hm : fs.Mounted)
    (hmin : FAT16_CLUSTER_MIN ≤ c) (hc : c ≤ fs.header.lastCluster)
    (hx : x ≤ fs.header.lastCluster) :
    (fs.newDir now d c).fatAt x = if x = c then FAT16_EOC else fs.fatAt x := by
  have hroot := FatHeader.rootDir_le_clusterToLba (h := fs.header) hmin
  have hs1 : (fs.setFat c FAT16_EOC).header.Sound := by rw [Fat16.setFat_header]; exact hm.sound
  rw [Fat16.newDir, Fat16.setSector_fatAt, Fat16.zeroed_fatAt hs1,
    Fat16.fatAt_setFat hm.sound hc (by decide) hx]
  · rw [Fat16.setFat_header]
    omega
  · rw [Fat16.setFat_header]
    exact hx
  · rw [Fat16.zeroed_header]
    exact hs1
  · rw [Fat16.zeroed_header, Fat16.setFat_header]
    exact hroot
  · rw [Fat16.zeroed_header, Fat16.setFat_header]
    exact hx

theorem Fat16.newDir_heads (now : DosStamp) {c : ℕ} (hm : fs.Mounted)
    (hmin : FAT16_CLUSTER_MIN ≤ c) (hc : c ≤ fs.header.lastCluster) :
    (fs.newDir now d c).Heads c [c] := by
  apply (Fat16.heads_single hm.sound hmin hc).congr
  · rw [Fat16.newDir_header, Fat16.setFat_header]
  · intro x hx
    rw [List.mem_singleton.mp hx, Fat16.newDir_fatAt hm hmin hc hc,
      Fat16.fatAt_setFat hm.sound hc (by decide) hc]

theorem Fat16.Extends.of_newDir (now : DosStamp) {c : ℕ} (hm : fs.Mounted)
    (hmin : FAT16_CLUSTER_MIN ≤ c) (hc : c ≤ fs.header.lastCluster)
    (hfree : fs.fatAt c = FAT16_FREE_CLUSTER) : fs.Extends (fs.newDir now d c) c [] [c] := by
  have hsingle := Fat16.Extends.of_single hm hmin hc hfree
  refine hsingle.trans ?_
  apply Fat16.SectorsOnly.toExtends (x := c) _ hsingle.mounted hsingle.heads (by simp)
  have hspc := hm.sound.spc
  rw [Fat16.setFat_header]
  constructor
  · rw [Fat16.newDir, Fat16.zeroed_rest]
    rfl
  · intro b hb
    rw [Fat16.newDir, Fat16.setSector_disk_ne (by omega), Fat16.zeroed_disk, if_neg (by omega)]

/-- The slots of a new directory: the two dot entries, then zeros. -/
theorem clusterSlots_cons {h : FatHeader} (hs : h.Sound) (c : ℕ) :
    ∃ rest, h.clusterSlots c = ⟨h.clusterToLba c, 0⟩ :: ⟨h.clusterToLba c, 32⟩ :: rest ∧
      ∀ x ∈ rest, (x.lba = h.clusterToLba c ∧ ∃ k, 2 ≤ k ∧ k < 16 ∧ x.off = k * 32) ∨
        (h.clusterToLba c < x.lba ∧ x.lba < h.clusterToLba c + h.spc) := by
  obtain ⟨n, hn⟩ : ∃ n, h.spc = n + 1 := ⟨h.spc - 1, by have := hs.spc; omega⟩
  refine ⟨sectorSlots (h.clusterToLba c) 14 2 ++ regionSlots 16 n (h.clusterToLba c + 1), ?_, ?_⟩
  · rw [FatHeader.clusterSlots, hs.perSector_eq, hn]
    rfl
  · intro x hx
    rcases List.mem_append.mp hx with hx | hx
    · obtain ⟨h1, k, h2, h3, h4⟩ := mem_sectorSlots.mp hx
      exact .inl ⟨h1, k, h2, by omega, h4⟩
    · obtain ⟨h1, h2, -⟩ := mem_regionSlots.mp hx
      exact .inr ⟨by omega, by omega⟩

theorem dotEntry_isDot (now : DosStamp) (c : ℕ) : fat16IsDot (dotEntry now c) = true := by
  simp [fat16IsDot, dotEntry, fat16EntryStamp]

theorem dotdotEntry_isDot (now : DosStamp) (d c : ℕ) :
    fat16IsDot (dotdotEntry now d c) = true := by
  simp [fat16IsDot, dotdotEntry]

/-- What the slots of a new directory hold. -/
theorem Fat16.newDir_entries (hs : fs.header.Sound) (now : DosStamp) (d c : ℕ) :
    ∃ x y rest, fs.header.clusterSlots c = x :: y :: rest ∧
      (fs.newDir now d c).entryAt x = dotEntry now c ∧
      (fs.newDir now d c).entryAt y = dotdotEntry now d c ∧
      ∀ z ∈ rest, (fs.newDir now d c).entryAt z = Fat16Directory.zero := by
  obtain ⟨rest, heq, hrest⟩ := clusterSlots_cons hs c
  have hbase : (fs.newDir now d c).disk (fs.header.clusterToLba c) = dotSector now d c := by
    rw [Fat16.newDir, Fat16.setSector_disk_self]
  refine ⟨_, _, rest, heq, ?_, ?_, ?_⟩
  · have hbytes : (fs.newDir now d c).entryAt ⟨fs.header.clusterToLba c, 0⟩ =
        Fat16Directory.ofBytes (dotEntry now c).toBytes := by
      unfold Fat16.entryAt
      simp only [hbase]
      apply Fat16Directory.ofBytes_congr
      intro j hj
      rw [dotSector, splice_outside (by simp only [FAT16_DIR_ENTRY_SIZE]; omega)]
      exact splice_inside hj
    rw [hbytes, Fat16Directory.ofBytes_toBytes]
  · have hbytes : (fs.newDir now d c).entryAt ⟨fs.header.clusterToLba c, 32⟩ =
        Fat16Directory.ofBytes (dotdotEntry now d c).toBytes := by
      unfold Fat16.entryAt
      simp only [hbase]
      apply Fat16Directory.ofBytes_congr
      intro j hj
      rw [dotSector]
      exact splice_inside hj
    rw [hbytes, Fat16Directory.ofBytes_toBytes]
  · intro z hz
    rcases hrest z hz with ⟨hlba, k, hk, hk', hoff⟩ | ⟨hlba, hlba'⟩
    · have hbytes : (fs.newDir now d c).entryAt z = Fat16Directory.ofBytes fun _ => 0 := by
        unfold Fat16.entryAt
        simp only [hlba, hbase]
        apply Fat16Directory.ofBytes_congr
        intro j hj
        rw [dotSector, splice_outside (by simp only [FAT16_DIR_ENTRY_SIZE]; omega),
          splice_outside (by simp only [FAT16_DIR_ENTRY_SIZE]; omega)]
      rw [hbytes]
      decide
    · apply Fat16.entryAt_of_zero
      rw [Fat16.newDir, Fat16.setSector_disk_ne (by omega), Fat16.zeroed_disk, if_pos (by omega)]

/-- Laying out a fresh cluster does not touch a chain in use. -/
theorem Fat16.newDir_owns (now : DosStamp) {c e : ℕ} (hm : fs.Mounted)
    (hmin : FAT16_CLUSTER_MIN ≤ c) (hc : c ≤ fs.header.lastCluster)
    (hfree : fs.fatAt c = FAT16_FREE_CLUSTER) (hown : fs.Owns e l) :
    (fs.newDir now d c).Owns e l := by
  apply hown.congr (Fat16.newDir_header fs now d c)
  intro x hx
  rw [Fat16.newDir_fatAt hm hmin hc (hown.inside hx), if_neg]
  intro hxc
  exact hown.ne_free hx (by rw [hxc]; exact hfree)

theorem fat16Mkdir_refused {now : DosStamp} {dir : Inode} {name : CStr} (hm : fs.Mounted)
    (hown : fs.Owns dir.ent.cluster l)
    (href : fs.Refused dir.ent.cluster l name (fat16FillEntry now name FAT16_ATTR_DIRECTORY)) :
    fat16Mkdir now dir name fs = some (none, fs) := by
  have hfind := fat16DirFind_ok hm hown.dirChain name
  by_cases hro : fs.readOnly = true
  · simp only [fat16Mkdir, enterName, mkdirEntry, Prog.bind_apply, Prog.get_apply, Prog.obind_some, hro, if_true,
      Prog.pure_apply]
  cases hent : fat16FillEntry now name FAT16_ATTR_DIRECTORY with
  | none =>
    simp only [fat16Mkdir, enterName, Prog.bind_apply, Prog.get_apply, Prog.obind_some, hro, hent, if_false,
      Bool.false_eq_true, Prog.pure_apply]
  | some ent =>
    obtain ⟨loc, hloc⟩ : ∃ loc, fs.findIn name (fs.header.dirSlots dir.ent.cluster l) = some loc := by
      rcases href with h | h | h
      · exact absurd h hro
      · rw [hent] at h
        cases h
      · exact Option.ne_none_iff_exists'.mp h
    simp only [hloc, Option.map_some] at hfind
    simp only [fat16Mkdir, enterName, mkdirEntry, Prog.bind_apply, Prog.get_apply, Prog.obind_some, hro, hent, if_false,
      Bool.false_eq_true, hfind, Prog.pure_apply]

/-- **`fat16_mkdir`** of a name that is not refused: a fresh cluster becomes the directory, and the entry goes
into the slot handed out; without a slot the cluster is freed again. -/
theorem fat16Mkdir_ok {now : DosStamp} {dir : Inode} {name : CStr} {ent : Fat16Directory}
    (hm : fs.Mounted) (hown : fs.Owns dir.ent.cluster l) (hro : fs.readOnly = false)
    (hent : fat16FillEntry now name FAT16_ATTR_DIRECTORY = some ent)
    (hnew : fs.findIn name (fs.header.dirSlots dir.ent.cluster l) = none) :
    (fs.Full ∧ fat16Mkdir now dir name fs = some (none, fs)) ∨
    (∃ c, FAT16_CLUSTER_MIN ≤ c ∧ c ≤ fs.header.lastCluster ∧ fs.fatAt c = FAT16_FREE_CLUSTER ∧
      ((∃ loc fs', (fs.newDir now dir.ent.cluster c).SlotFor dir.ent.cluster l loc fs' ∧
          fat16Mkdir now dir name fs =
            some (some (Inode.ofEntry (dirEntry ent c) loc), fs'.setEntry loc (dirEntry ent c))) ∨
       ((fs.newDir now dir.ent.cluster c).NoSlot dir.ent.cluster l ∧
          fat16Mkdir now dir name fs =
            some (none, (fs.newDir now dir.ent.cluster c).freeAll [c])))) := by
  have hfind := fat16DirFind_ok hm hown.dirChain name
  simp only [hnew, Option.map_none] at hfind
  rcases fat16ClusterAlloc_ok hm with ⟨c, hmin, hc, hfree, halloc⟩ | ⟨hfull, halloc⟩
  · right
    refine ⟨c, hmin, hc, hfree, ?_⟩
    have hm0 : (fs.setFat c FAT16_EOC).Mounted := Fat16.setFat_mounted hm hc
    have hzero := zeroSectors_ok hm0.noFaults (fs.header.spc - 1) (fs.header.clusterToLba c + 1)
    have hm1 : ((fs.setFat c FAT16_EOC).zeroed (fs.header.spc - 1)
        (fs.header.clusterToLba c + 1)).Mounted := by
      apply Fat16.zeroed_mounted hm0
      have := FatHeader.rootDir_le_clusterToLba (h := fs.header) hmin
      rw [Fat16.setFat_header]
      omega
    have hdots := blkDevWrite_ok hm1.noFaults (fs.header.clusterToLba c)
      (dotSector now dir.ent.cluster c)
    have hm2 := Fat16.newDir_mounted (d := dir.ent.cluster) now hm hmin hc
    have hown2 := Fat16.newDir_owns (d := dir.ent.cluster) now hm hmin hc hfree hown
    rcases fat16DirAllocSlot_ok hm2 hown2 with ⟨loc, fs', hslot, hrun⟩ | ⟨hno, hrun⟩
    · left
      have hm' := hslot.mounted hm2 hown2
      have hf : (fs'.setEntry loc (dirEntry ent c)).NoFaults :=
        Fat16.setSector_noFaults hm'.noFaults _ _
      refine ⟨loc, fs', hslot, ?_⟩
      unfold Fat16.newDir at hrun
      unfold dirEntry at hf
      simp only [fat16Mkdir, enterName, mkdirEntry, Prog.bind_apply, Prog.get_apply, Prog.obind_some, hro, hent, if_false,
        Bool.false_eq_true, hfind, halloc, hzero, if_true, hdots, hrun,
        fat16DirWrite_ok hm'.noFaults, fat16MakeInode_ok hf, Prog.pure_apply]
      rfl
    · right
      have hheads := Fat16.newDir_heads (d := dir.ent.cluster) now hm hmin hc
      have hfreeAll : fat16ChainFree c (fs.newDir now dir.ent.cluster c) =
          some (true, (fs.newDir now dir.ent.cluster c).freeAll [c]) := by
        obtain ⟨t, -, hchain⟩ := hheads.chain
        exact fat16ChainFree_ok hm2 hchain.path hchain.ended hchain.nodup hchain.inside
      refine ⟨hno, ?_⟩
      unfold Fat16.newDir at hrun hfreeAll ⊢
      simp only [fat16Mkdir, enterName, mkdirEntry, Prog.bind_apply, Prog.get_apply, Prog.obind_some, hro, hent, if_false,
        Bool.false_eq_true, hfind, halloc, hzero, if_true, hdots, hrun, mkdirUndo, hfreeAll,
        Prog.pure_apply]
  · left
    refine ⟨hfull, ?_⟩
    simp only [fat16Mkdir, enterName, mkdirEntry, Prog.bind_apply, Prog.get_apply, Prog.obind_some, hro, hent, if_false,
      Bool.false_eq_true, hfind, halloc, Prog.pure_apply]

/-! ### Removing and truncating -/

/-- The volume with the chain `l` freed and the slot's entry replaced. -/
def Fat16.release (fs : Fat16) (l : List ℕ) (loc : DirLoc) (ent : Fat16Directory) : Fat16 :=
  (fs.freeAll l).setEntry loc ent

theorem fat16ChainFree_owned {c : ℕ} (hm : fs.Mounted) (h : fs.Heads c l) :
    fat16ChainFree c fs = some (true, fs.freeAll l) := by
  obtain ⟨t, -, hc⟩ := h.chain
  exact fat16ChainFree_ok hm hc.path hc.ended hc.nodup hc.inside

theorem freeAndErase_ok {loc : DirLoc} {ent : Fat16Directory} (hm : fs.Mounted)
    (hown : fs.Owns ent.cluster l) :
    freeAndErase loc ent fs = some (true, fs.release l loc (eraseEntry ent)) := by
  rcases hown with ⟨hzero, rfl⟩ | hheads
  · have hinv : fat16ClusterValid 0 = false := by decide
    simp only [freeAndErase, hzero, hinv, Bool.false_eq_true, if_false,
      fat16DirWrite_ok hm.noFaults]
    rfl
  · have hvalid := hheads.valid hheads.head_mem
    have hm' := Fat16.freeAll_mounted hm fun x hx => hheads.inside hx
    have hfree := fat16ChainFree_owned hm hheads
    simp only [freeAndErase, hvalid, if_true, Prog.bind_apply, hfree, Prog.obind_some,
      fat16DirWrite_ok hm'.noFaults]
    rfl

/-- **`fat16_unlink`** of a file with the chain `m`. -/
theorem fat16Unlink_ok {dir : Inode} {name : CStr} {loc : DirLoc} {m : List ℕ} (hm : fs.Mounted)
    (hown : fs.Owns dir.ent.cluster l) (hro : fs.readOnly = false)
    (hfound : fs.findIn name (fs.header.dirSlots dir.ent.cluster l) = some loc)
    (hfile : isDir (fs.entryAt loc) = false) (hm' : fs.Owns (fs.entryAt loc).cluster m) :
    fat16Unlink dir name fs = some (true, fs.release m loc (eraseEntry (fs.entryAt loc))) := by
  have hfind := fat16DirFind_ok hm hown.dirChain name
  simp only [hfound, Option.map_some] at hfind
  simp only [fat16Unlink, Prog.bind_apply, Prog.get_apply, Prog.obind_some, hro, if_false,
    Bool.false_eq_true, hfind, hfile, freeAndErase_ok hm hm']

theorem fat16Unlink_refused {dir : Inode} {name : CStr} (hm : fs.Mounted)
    (hown : fs.Owns dir.ent.cluster l)
    (href : fs.readOnly = true ∨ ∀ loc,
      fs.findIn name (fs.header.dirSlots dir.ent.cluster l) = some loc →
        isDir (fs.entryAt loc) = true) :
    fat16Unlink dir name fs = some (false, fs) := by
  have hfind := fat16DirFind_ok hm hown.dirChain name
  by_cases hro : fs.readOnly = true
  · simp only [fat16Unlink, Prog.bind_apply, Prog.get_apply, Prog.obind_some, hro, if_true,
      Prog.pure_apply]
  cases hloc : fs.findIn name (fs.header.dirSlots dir.ent.cluster l) with
  | none =>
    simp only [hloc, Option.map_none] at hfind
    simp only [fat16Unlink, Prog.bind_apply, Prog.get_apply, Prog.obind_some, hro, if_false,
      Bool.false_eq_true, hfind, Prog.pure_apply]
  | some loc =>
    have hdir : isDir (fs.entryAt loc) = true := by
      rcases href with h | h
      · exact absurd h hro
      · exact h loc hloc
    simp only [hloc, Option.map_some] at hfind
    simp only [fat16Unlink, Prog.bind_apply, Prog.get_apply, Prog.obind_some, hro, if_false,
      Bool.false_eq_true, hfind, hdir, if_true, Prog.pure_apply]

/-- **`fat16_rmdir`** of a directory with the chain `m`: it is removed when no slot of it holds a child. -/
theorem fat16Rmdir_ok {dir : Inode} {name : CStr} {loc : DirLoc} {m : List ℕ} (hm : fs.Mounted)
    (hown : fs.Owns dir.ent.cluster l) (hro : fs.readOnly = false)
    (hfound : fs.findIn name (fs.header.dirSlots dir.ent.cluster l) = some loc)
    (hdir : isDir (fs.entryAt loc) = true) (hm' : fs.Owns (fs.entryAt loc).cluster m) :
    fat16Rmdir dir name fs =
      if (fs.header.dirSlots (fs.entryAt loc).cluster m).all fun x => !fs.child x then
        some (true, fs.release m loc (eraseEntry (fs.entryAt loc)))
      else some (false, fs) := by
  have hfind := fat16DirFind_ok hm hown.dirChain name
  simp only [hfound, Option.map_some] at hfind
  have hempty := fat16DirEmpty_ok hm hm'.dirChain
  cases hall : (fs.header.dirSlots (fs.entryAt loc).cluster m).all fun x => !fs.child x with
  | true =>
    simp only [hall] at hempty
    simp only [fat16Rmdir, Prog.bind_apply, Prog.get_apply, Prog.obind_some, hro, if_false,
      Bool.false_eq_true, hfind, hdir, if_true, hempty, freeAndErase_ok hm hm']
  | false =>
    simp only [hall] at hempty
    simp only [fat16Rmdir, Prog.bind_apply, Prog.get_apply, Prog.obind_some, hro, if_false,
      Bool.false_eq_true, hfind, hdir, if_true, hempty, Prog.pure_apply]

theorem fat16Rmdir_refused {dir : Inode} {name : CStr} (hm : fs.Mounted)
    (hown : fs.Owns dir.ent.cluster l)
    (href : fs.readOnly = true ∨ ∀ loc,
      fs.findIn name (fs.header.dirSlots dir.ent.cluster l) = some loc →
        isDir (fs.entryAt loc) = false) :
    fat16Rmdir dir name fs = some (false, fs) := by
  have hfind := fat16DirFind_ok hm hown.dirChain name
  by_cases hro : fs.readOnly = true
  · simp only [fat16Rmdir, Prog.bind_apply, Prog.get_apply, Prog.obind_some, hro, if_true,
      Prog.pure_apply]
  cases hloc : fs.findIn name (fs.header.dirSlots dir.ent.cluster l) with
  | none =>
    simp only [hloc, Option.map_none] at hfind
    simp only [fat16Rmdir, Prog.bind_apply, Prog.get_apply, Prog.obind_some, hro, if_false,
      Bool.false_eq_true, hfind, Prog.pure_apply]
  | some loc =>
    have hdir : isDir (fs.entryAt loc) = false := by
      rcases href with h | h
      · exact absurd h hro
      · exact h loc hloc
    simp only [hloc, Option.map_some] at hfind
    simp only [fat16Rmdir, Prog.bind_apply, Prog.get_apply, Prog.obind_some, hro, if_false,
      Bool.false_eq_true, hfind, hdir, Prog.pure_apply]

/-- The inode `fat16_truncate` leaves. -/
def Inode.emptied (now : DosStamp) (ino : Inode) : Inode :=
  { ino with
    size := 0
    ent := fat16EntryTouch now { ino.ent with firstClusterLow := 0, fileSizeBytes := 0 } }

/-- **`fat16_truncate`** to length 0 of a file with the chain `l`. -/
theorem fat16Truncate_ok (now : DosStamp) {ino : Inode} (hm : fs.Mounted)
    (hown : fs.Owns ino.ent.cluster l) :
    fat16Truncate now ino 0 fs =
      if isDir ino.ent = true ∨ fs.readOnly = true then some ((-1, ino), fs)
      else if ino.size = 0 ∧ ino.ent.cluster = 0 then some ((0, ino), fs)
      else some ((0, ino.emptied now), fs.release l ino.loc (ino.emptied now).ent) := by
  by_cases hdir : isDir ino.ent = true ∨ fs.readOnly = true
  · have hor : (isDir ino.ent || fs.readOnly) = true := by simpa using hdir
    rw [if_pos hdir]
    simp only [fat16Truncate, Prog.bind_apply, Prog.get_apply, Prog.obind_some, hor, if_true,
      Prog.pure_apply]
  rw [if_neg hdir]
  have hor : (isDir ino.ent || fs.readOnly) = false := by simpa using hdir
  by_cases hempty : ino.size = 0 ∧ ino.ent.cluster = 0
  · rw [if_pos hempty]
    simp only [fat16Truncate, Prog.bind_apply, Prog.get_apply, Prog.obind_some, hor,
      Bool.false_eq_true, if_false, ne_eq, not_true_eq_false, if_pos hempty, Prog.pure_apply]
  rw [if_neg hempty]
  rcases hown with ⟨hzero, rfl⟩ | hheads
  · have hinv : fat16ClusterValid ino.ent.cluster = false := by rw [hzero]; decide
    simp only [fat16Truncate, Prog.bind_apply, Prog.get_apply, Prog.obind_some, hor,
      Bool.false_eq_true, if_false, ne_eq, not_true_eq_false, if_neg hempty, hinv,
      fat16DirWrite_ok hm.noFaults, if_true, Prog.pure_apply]
    rfl
  · have hvalid := hheads.valid hheads.head_mem
    have hm' := Fat16.freeAll_mounted hm fun x hx => hheads.inside hx
    have hfree := fat16ChainFree_owned hm hheads
    simp only [fat16Truncate, Prog.bind_apply, Prog.get_apply, Prog.obind_some, hor,
      Bool.false_eq_true, if_false, ne_eq, not_true_eq_false, if_neg hempty, hvalid, if_true, hfree,
      Prog.pure_apply, fat16DirWrite_ok hm'.noFaults]
    rfl

end LizardOs.Fat
