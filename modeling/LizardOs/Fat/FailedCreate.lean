import LizardOs.Fat.CreateFind
import LizardOs.Fat.WriteFaults

/-!
# Failed creates

`fat16_create` and `fat16_mkdir` return `-1` from many places.  Some of them undo what was done and some do not: an entry
is written before its inode is allocated and is never taken back, a cluster handed out by the allocator stays marked when
the link to it or the sectors in it cannot be written.  `leavesNoTrace_iff` says for which calls no failing write and no
failing allocation can show this.
-/

namespace LizardOs.Fat

open LizardOs.Lib

variable {fs fs' : Fat16} {d x a : ℕ} {l m : List ℕ} {loc : DirLoc} {ent : Fat16Directory}

/-! ### Choosing a slot when writes may fail -/

/-- The answer of the scan with `free_slot`. -/
def slotFound : Option DirLoc → ℤ × Option DirLoc
  | some loc => (1, some loc)
  | none => (0, none)

theorem freeSlot_scan (hm : fs.Mounted) (hown : fs.Owns d l) :
    ∃ k, ∀ io alloc, ReadsOk io → fat16DirScan d freeSlot none (fs.withOutcomes io alloc) =
      some (slotFound ((fs.header.dirSlots d l).find? fs.reusable), fs.withOutcomes (io.drop k) alloc) := by
  have hscan : fat16DirScan d freeSlot none fs =
      some (slotFound ((fs.header.dirSlots d l).find? fs.reusable), fs) := by
    rw [fat16DirScan_ok hm hown.dirChain none (freeSlot_pure _), foldStop_freeSlot]
    cases (fs.header.dirSlots d l).find? fs.reusable with
    | none => rfl
    | some loc => rfl
  exact (Reader.fat16DirScan Reader.freeSlot d none fs _ fs hm.noFaults hscan).2

/-- A slot that can be reused is handed out. -/
theorem fat16DirAllocSlot_reused (hm : fs.Mounted) (hown : fs.Owns d l)
    (hfind : (fs.header.dirSlots d l).find? fs.reusable = some loc) :
    ∃ k, ∀ io alloc, ReadsOk io → fat16DirAllocSlot d (fs.withOutcomes io alloc) =
      some (some loc, fs.withOutcomes (io.drop k) alloc) := by
  obtain ⟨k, hscan⟩ := freeSlot_scan hm hown
  refine ⟨k, fun io alloc hio => ?_⟩
  simp only [fat16DirAllocSlot, appendCluster, Prog.bind_apply, hscan io alloc hio, hfind, slotFound, Prog.obind_some,
    if_true, Prog.pure_apply]

/-- A full root directory hands out nothing. -/
theorem fat16DirAllocSlot_root (hm : fs.Mounted) (hfind : (fs.header.dirSlots 0 []).find? fs.reusable = none) :
    ∃ k, ∀ io alloc, ReadsOk io → fat16DirAllocSlot 0 (fs.withOutcomes io alloc) =
      some (none, fs.withOutcomes (io.drop k) alloc) := by
  obtain ⟨k, hscan⟩ := freeSlot_scan hm (show fs.Owns 0 [] from .inl ⟨rfl, rfl⟩)
  have h01 : ¬((0 : ℤ) = 1) := by decide
  refine ⟨k, fun io alloc hio => ?_⟩
  simp only [fat16DirAllocSlot, appendCluster, Prog.bind_apply, hscan io alloc hio, hfind, slotFound, Prog.obind_some,
    h01, if_true, if_false, Prog.pure_apply]

/-- A full subdirectory is prolonged. -/
theorem fat16DirAllocSlot_append (hm : fs.Mounted) (hheads : fs.Heads d l)
    (hfind : (fs.header.dirSlots d l).find? fs.reusable = none) :
    ∃ x k, l.getLast? = some x ∧ ∀ io alloc, ReadsOk io → fat16DirAllocSlot d (fs.withOutcomes io alloc) =
      appendCluster x (fs.withOutcomes (io.drop k) alloc) := by
  have h01 : ¬((0 : ℤ) = 1) := by decide
  have hd := hheads.head_ne_zero
  obtain ⟨k, hscan⟩ := freeSlot_scan hm (.inr hheads)
  obtain ⟨m, rfl⟩ := hheads.head
  obtain ⟨t, -, hc⟩ := hheads.chain
  obtain ⟨-, k', hnext⟩ := Reader.fat16NextCluster d fs _ fs hm.noFaults (fat16NextCluster_ok hm (hc.inside d (by simp)))
  have hlen := hheads.length_lt
  unfold fat16DirAllocSlot
  generalize CLUSTER_STEPS = steps at hlen ⊢
  obtain ⟨x, hx, hrun⟩ := lastClusterFrom_ok (x := d) (n := steps) hm hc.path.2.2 hc.ended
    (fun z hz => hc.inside z (by simp [hz])) (by simp at hlen; omega)
  obtain ⟨-, k'', hlast⟩ := Reader.lastClusterFrom steps d (fs.fatAt d) fs _ fs hm.noFaults hrun
  refine ⟨x, k + k' + k'', hx, fun io alloc hio => ?_⟩
  rw [← List.drop_drop, ← List.drop_drop]
  simp only [Prog.bind_apply, hscan io alloc hio, hfind, slotFound, Prog.obind_some, h01, if_false, hd,
    hnext _ alloc (hio.drop k), hlast _ alloc ((hio.drop k).drop k')]

theorem appendCluster_full (hm : fs.Mounted) (hlist : fs.freeList = []) (x : ℕ) :
    ∃ k, ∀ io alloc, ReadsOk io → appendCluster x (fs.withOutcomes io alloc) =
      some (none, fs.withOutcomes (io.drop k) alloc) := by
  obtain ⟨k, halloc⟩ := fat16ClusterAlloc_outcomes hm
  refine ⟨k, fun io alloc hio => ?_⟩
  have hrun := halloc io alloc hio
  rw [hlist, allocFirst, Prog.pure_apply] at hrun
  simp only [appendCluster, Prog.bind_apply, hrun, Prog.obind_some, Prog.pure_apply]

/-- The new cluster is taken and the write of the link to it fails. -/
theorem appendCluster_leak (hm : fs.Mounted) (hlist : fs.freeList = a :: m) (x : ℕ) :
    ∃ n, appendCluster x (fs.withFaults (writeFails n)) = some (none, (fs.setFat a FAT16_EOC).withFaults []) := by
  have ha : a ≤ fs.header.lastCluster := (Fat16.mem_freeList.mp (by rw [hlist]; simp)).2.1
  obtain ⟨k, halloc⟩ := fat16ClusterAlloc_outcomes hm
  have hrun := halloc (writeFails (k + (2 * fs.header.numFats.toNat + 1))) [] (readsOk_writeFails _)
  rw [drop_writeFails, Fat16.withOutcomes_nil hm.noFaults, Fat16.withOutcomes_nil hm.noFaults, hlist,
    allocFirst_writeFails hm.sound] at hrun
  have hs1 : ((fs.setFat a FAT16_EOC).withFaults (writeFails 1)).header.Sound :=
    (Fat16.setFat_mounted hm ha).sound
  have hset := fat16FatSet_failWrite hs1 x a rfl
  refine ⟨k + (2 * fs.header.numFats.toNat + 1), ?_⟩
  simp only [appendCluster, Prog.bind_apply, hrun, Prog.obind_some, hset, Bool.false_eq_true, if_false, Prog.pure_apply,
    Fat16.withFaults_withFaults]

/-! ### No trace -/

/-- The cluster `b` belongs to the directory `d` and holds only zeros. -/
def Fat16.ZeroedIn (fs : Fat16) (d b : ℕ) : Prop :=
  ∃ l, fs.DirChain d l ∧ b ∈ l ∧ ∀ i < fs.header.spc, ∀ j < 512, fs.disk (fs.header.clusterToLba b + i) j = 0

/-- **A failed call leaves no trace**: the directory `d` lists the entries it listed before, and a cluster that was free
is still free or was appended to `d` and zeroed. -/
def LeavesNoTrace (op : Fs (Option Inode)) (d : ℕ) (fs : Fat16) : Prop :=
  ∀ fs', op fs = some (none, fs') →
    (∀ loc ent, fs'.Lists d loc ∧ fs'.entryAt loc = ent ↔ fs.Lists d loc ∧ fs.entryAt loc = ent) ∧
      ∀ b ∈ fs.freeList, b ∈ fs'.freeList ∨ fs'.ZeroedIn d b

section LeavesNoTrace

variable {op : Fs (Option Inode)} {io io' : List (IoOp → ℕ → Bool)} {alloc alloc' : List Bool}

theorem Fat16.DirChain.withOutcomes (h : fs.DirChain d l) (io : List (IoOp → ℕ → Bool)) (alloc : List Bool) :
    (fs.withOutcomes io alloc).DirChain d l := by
  rcases h with h | ⟨hd, t, hc⟩
  · exact .inl h
  · exact .inr ⟨hd, t, hc.path, hc.ended, hc.nodup, hc.inside⟩

/-- What a directory lists does not depend on the outcomes to come. -/
theorem Fat16.lists_withOutcomes (fs : Fat16) (d : ℕ) (loc : DirLoc) (io : List (IoOp → ℕ → Bool)) (alloc : List Bool) :
    (fs.withOutcomes io alloc).Lists d loc ↔ fs.Lists d loc := by
  constructor
  · rintro ⟨l, hchain, hlive⟩
    exact ⟨l, hchain.withOutcomes fs.ioFaults fs.allocFaults, hlive⟩
  · rintro ⟨l, hchain, hlive⟩
    exact ⟨l, hchain.withOutcomes io alloc, hlive⟩

theorem leavesNoTrace_of_some {ino : Inode} (h : op fs = some (some ino, fs')) : LeavesNoTrace op d fs := by
  intro fs1 h1
  rw [h] at h1
  cases h1

theorem leavesNoTrace_of_outcomes
    (h : op (fs.withOutcomes io alloc) = some (none, fs.withOutcomes io' alloc')) :
    LeavesNoTrace op d (fs.withOutcomes io alloc) := by
  intro fs1 h1
  rw [h] at h1
  obtain rfl : fs.withOutcomes io' alloc' = fs1 := by simpa using h1
  refine ⟨fun loc ent => ?_, fun b hb => .inl hb⟩
  rw [Fat16.lists_withOutcomes, Fat16.lists_withOutcomes]
  rfl

/-- A cluster that is marked and belongs to nothing is a trace. -/
theorem not_leavesNoTrace_leak (hm : fs.Mounted) (hown : fs.Owns d l) (hlist : fs.freeList = a :: m)
    (h : op (fs.withFaults io) = some (none, (fs.setFat a FAT16_EOC).withFaults io')) :
    ¬LeavesNoTrace op d (fs.withFaults io) := by
  have hmem : a ∈ fs.freeList := by
    rw [hlist]
    simp
  obtain ⟨-, hin, hfree⟩ := Fat16.mem_freeList.mp hmem
  have hval : ∀ y ≤ fs.header.lastCluster, (fs.setFat a FAT16_EOC).fatAt y = if y = a then FAT16_EOC else fs.fatAt y :=
    fun y hy => Fat16.fatAt_setFat hm.sound hin (by decide) hy
  intro hclean
  rcases (hclean _ h).2 a hmem with hstill | ⟨l', hchain, hal, -⟩
  · have hzero : (fs.setFat a FAT16_EOC).fatAt a = FAT16_FREE_CLUSTER := (Fat16.mem_freeList.mp hstill).2.2
    rw [hval a hin, if_pos rfl] at hzero
    revert hzero
    decide
  · have hown' : ((fs.setFat a FAT16_EOC).withFaults io').Owns d l := by
      refine hown.congr (Fat16.setFat_header _ _ _) fun y hy => ?_
      have hya : y ≠ a := by
        rintro rfl
        exact hown.ne_free hy hfree
      show (fs.setFat a FAT16_EOC).fatAt y = fs.fatAt y
      rw [hval y (hown.inside hy), if_neg hya]
    rw [hchain.unique hown'.dirChain] at hal
    exact hown.ne_free hal hfree

end LeavesNoTrace

/-! ### An entry left behind -/

theorem mem_live_cons {pre post : List DirLoc} (hpre : ∀ y ∈ pre, fs.firstByte y ≠ FAT16_DIR_ENTRY_END) {y : DirLoc} :
    y ∈ fs.live (pre ++ loc :: post) ↔
      (y ∈ pre ∨ fs.firstByte loc ≠ FAT16_DIR_ENTRY_END ∧ (y = loc ∨ y ∈ fs.beforeEnd post)) ∧
        fat16EntryValid (fs.entryAt y) = true := by
  rw [mem_live, beforeEnd_append fs hpre, List.mem_append]
  by_cases hend : fs.firstByte loc = FAT16_DIR_ENTRY_END
  · simp [Fat16.beforeEnd, hend]
  · simp [Fat16.beforeEnd, hend]

/-- Writing an entry into a reused slot goes unnoticed exactly if it is not an entry in use and exposes none. -/
theorem setEntry_unnoticed_iff (hm : fs.Mounted) (hown : fs.Owns d l)
    (hfind : (fs.header.dirSlots d l).find? fs.reusable = some loc) (hfirst : ent.first ≠ FAT16_DIR_ENTRY_END) :
    (∀ y e, (fs.setEntry loc ent).Lists d y ∧ (fs.setEntry loc ent).entryAt y = e ↔ fs.Lists d y ∧ fs.entryAt y = e) ↔
      fat16EntryValid ent = false ∧ fs.exposed (fs.header.dirSlots d l) = [] := by
  obtain ⟨l', pre, post, hp⟩ := Fat16.SlotFor.placed hm hown (.inl ⟨hfind, rfl⟩) ent
  obtain ⟨hslots, hre, hbehind⟩ : fs.header.dirSlots d l = pre ++ loc :: post ∧ fs.reusable loc = true ∧
      ∀ y ∈ post, (fs.setEntry loc ent).entryAt y = fs.entryAt y := by
    rcases hp.cases with h | ⟨hslots, -⟩
    · exact h
    · rw [hslots] at hfind
      have hused := hp.taken loc (List.mem_of_find?_eq_some hfind)
      rw [List.find?_some hfind] at hused
      cases hused
  have hnd := dirSlots_nodup hm.sound hown
  rw [hslots] at hnd
  have hinvalid := reusable_invalid hre
  have hend' : ∀ y ∈ pre, (fs.setEntry loc ent).firstByte y ≠ FAT16_DIR_ENTRY_END := by
    intro y hy
    rw [← Fat16.entryAt_first, hp.before y hy, Fat16.entryAt_first]
    exact hp.pre_ne_end hy
  have hloc' : (fs.setEntry loc ent).firstByte loc ≠ FAT16_DIR_ENTRY_END := by
    rw [← Fat16.entryAt_first, hp.self]
    exact hfirst
  have hold : ∀ y, fs.Lists d y ↔
      (y ∈ pre ∨ fs.firstByte loc ≠ FAT16_DIR_ENTRY_END ∧ (y = loc ∨ y ∈ fs.beforeEnd post)) ∧
        fat16EntryValid (fs.entryAt y) = true := by
    intro y
    rw [lists_iff_live hown.dirChain, hslots, mem_live_cons fun y hy => hp.pre_ne_end hy]
  have hnew : ∀ y, (fs.setEntry loc ent).Lists d y ↔ (y ∈ pre ∨ y = loc ∨ y ∈ fs.beforeEnd post) ∧
      fat16EntryValid ((fs.setEntry loc ent).entryAt y) = true := by
    intro y
    rw [lists_iff_live hp.owns.dirChain, hp.slots, mem_live_cons hend', beforeEnd_congr hbehind]
    simp only [ne_eq, hloc', not_false_eq_true, true_and]
  have hsub : ∀ y ∈ fs.beforeEnd post, y ∈ post := fun y hy => (List.takeWhile_prefix _).subset hy
  have hapart : ∀ y ∈ post, y ∉ pre := by
    intro y hy hpre
    exact (List.nodup_append.mp hnd).2.2 y hpre y (by simp [hy]) rfl
  rw [hslots, exposed_append hp.taken hre]
  constructor
  · intro h
    have hskip : fat16EntryValid ent = false := by
      by_contra hv
      have hlists : (fs.setEntry loc ent).Lists d loc := (hnew loc).mpr ⟨by simp, by simpa [hp.self] using hv⟩
      have hvalid := ((hold loc).mp ((h loc _).mp ⟨hlists, rfl⟩).1).2
      rw [hinvalid] at hvalid
      cases hvalid
    refine ⟨hskip, ?_⟩
    split
    · rename_i hend
      rw [List.eq_nil_iff_forall_not_mem]
      intro y hy
      obtain ⟨hy1, hy2⟩ := mem_live.mp hy
      have hlists : (fs.setEntry loc ent).Lists d y :=
        (hnew y).mpr ⟨.inr (.inr hy1), by rw [hbehind y (hsub y hy1)]; exact hy2⟩
      rcases ((hold y).mp ((h y _).mp ⟨hlists, rfl⟩).1).1 with hpre | ⟨hne, -⟩
      · exact hapart y (hsub y hy1) hpre
      · exact hne hend
    · rfl
  · rintro ⟨hskip, hex⟩ y e
    have hforth : (fs.setEntry loc ent).Lists d y → fs.Lists d y ∧ (fs.setEntry loc ent).entryAt y = fs.entryAt y := by
      rw [hnew, hold]
      rintro ⟨hy | rfl | hy, hv⟩
      · rw [hp.before y hy] at hv ⊢
        exact ⟨⟨.inl hy, hv⟩, rfl⟩
      · rw [hp.self, hskip] at hv
        cases hv
      · rw [hbehind y (hsub y hy)] at hv ⊢
        refine ⟨⟨.inr ⟨fun hend => ?_, .inr hy⟩, hv⟩, rfl⟩
        rw [if_pos hend, List.eq_nil_iff_forall_not_mem] at hex
        exact hex y (mem_live.mpr ⟨hy, hv⟩)
    have hback : fs.Lists d y → (fs.setEntry loc ent).Lists d y ∧ (fs.setEntry loc ent).entryAt y = fs.entryAt y := by
      rw [hnew, hold]
      rintro ⟨hy | ⟨-, rfl | hy⟩, hv⟩
      · rw [hp.before y hy]
        exact ⟨⟨.inl hy, hv⟩, rfl⟩
      · rw [hinvalid] at hv
        cases hv
      · rw [hbehind y (hsub y hy)]
        exact ⟨⟨.inr (.inr hy), hv⟩, rfl⟩
    constructor
    · rintro ⟨hl, rfl⟩
      exact ⟨(hforth hl).1, (hforth hl).2.symm⟩
    · rintro ⟨hl, rfl⟩
      exact hback hl

/-! ### Creating a file -/

section Create

variable {now : DosStamp} {dir : Inode} {name : CStr} {attributes : UInt8}

theorem fat16DirFind_outcomes (hm : fs.Mounted) (hown : fs.Owns d l) (name : CStr) :
    ∃ k, ∀ io alloc, ReadsOk io → fat16DirFind d name (fs.withOutcomes io alloc) =
      some ((fs.findIn name (fs.header.dirSlots d l)).map fun loc => (loc, fs.entryAt loc),
        fs.withOutcomes (io.drop k) alloc) :=
  (Reader.fat16DirFind d name fs _ fs hm.noFaults (fat16DirFind_ok hm hown.dirChain name)).2

theorem enterName_refused (hm : fs.Mounted) (hown : fs.Owns d l)
    (href : fs.Refused d l name (fat16FillEntry now name attributes)) (go : Fat16 → Fat16Directory → Fs (Option Inode))
    {io : List (IoOp → ℕ → Bool)} (hio : ReadsOk io) (alloc : List Bool) :
    ∃ io', enterName now d name attributes go (fs.withOutcomes io alloc) = some (none, fs.withOutcomes io' alloc) := by
  obtain ⟨k, hfind⟩ := fat16DirFind_outcomes hm hown name
  cases hro : (fs.withOutcomes io alloc).readOnly with
  | true =>
    refine ⟨io, ?_⟩
    simp only [enterName, Prog.bind_apply, Prog.get_apply, Prog.obind_some, hro, if_true, Prog.pure_apply]
  | false =>
    cases hent : fat16FillEntry now name attributes with
    | none =>
      refine ⟨io, ?_⟩
      simp only [enterName, Prog.bind_apply, Prog.get_apply, Prog.obind_some, hro, hent, Bool.false_eq_true, if_false,
        Prog.pure_apply]
    | some ent =>
      obtain ⟨loc, hloc⟩ : ∃ loc, fs.findIn name (fs.header.dirSlots d l) = some loc := by
        rcases href with h | h | h
        · rw [show fs.readOnly = false from hro] at h
          cases h
        · rw [hent] at h
          cases h
        · exact Option.ne_none_iff_exists'.mp h
      have hfound := hfind io alloc hio
      rw [hloc, Option.map_some] at hfound
      refine ⟨io.drop k, ?_⟩
      simp only [enterName, Prog.bind_apply, Prog.get_apply, Prog.obind_some, hro, hent, Bool.false_eq_true, if_false,
        hfound, Prog.pure_apply]

theorem enterName_goes (hm : fs.Mounted) (hown : fs.Owns d l) (hro : fs.readOnly = false)
    (hent : fat16FillEntry now name attributes = some ent) (hnew : fs.findIn name (fs.header.dirSlots d l) = none) :
    ∃ k, ∀ go io alloc, ReadsOk io → enterName now d name attributes go (fs.withOutcomes io alloc) =
      go (fs.withOutcomes io alloc) ent (fs.withOutcomes (io.drop k) alloc) := by
  obtain ⟨k, hfind⟩ := fat16DirFind_outcomes hm hown name
  refine ⟨k, fun go io alloc hio => ?_⟩
  have hfound := hfind io alloc hio
  have hro' : (fs.withOutcomes io alloc).readOnly = false := hro
  rw [hnew, Option.map_none] at hfound
  simp only [enterName, Prog.bind_apply, Prog.get_apply, Prog.obind_some, hro', hent, Bool.false_eq_true, if_false,
    hfound]

theorem createEntry_reused (hm : fs.Mounted) (hown : fs.Owns d l)
    (hfind : (fs.header.dirSlots d l).find? fs.reusable = some loc) (ent : Fat16Directory) :
    ∃ k, ∀ io alloc, ReadsOk io → createEntry d ent (fs.withOutcomes io alloc) =
      placeEntry loc ent (fs.withOutcomes (io.drop k) alloc) := by
  obtain ⟨k, hslot⟩ := fat16DirAllocSlot_reused hm hown hfind
  refine ⟨k, fun io alloc hio => ?_⟩
  simp only [createEntry, Prog.bind_apply, hslot io alloc hio, Prog.obind_some]

theorem createEntry_noSlot (hm : fs.Mounted) (hown : fs.Owns d l)
    (hfind : (fs.header.dirSlots d l).find? fs.reusable = none) (hno : d = 0 ∨ fs.freeList = [])
    (ent : Fat16Directory) :
    ∃ k, ∀ io alloc, ReadsOk io → createEntry d ent (fs.withOutcomes io alloc) =
      some (none, fs.withOutcomes (io.drop k) alloc) := by
  rcases hown with ⟨rfl, rfl⟩ | hheads
  · obtain ⟨k, hslot⟩ := fat16DirAllocSlot_root hm hfind
    refine ⟨k, fun io alloc hio => ?_⟩
    simp only [createEntry, Prog.bind_apply, hslot io alloc hio, Prog.obind_some, Prog.pure_apply]
  · obtain ⟨x, k, -, hslot⟩ := fat16DirAllocSlot_append hm hheads hfind
    obtain ⟨k', hfull⟩ := appendCluster_full hm (hno.resolve_left hheads.head_ne_zero) x
    refine ⟨k + k', fun io alloc hio => ?_⟩
    rw [← List.drop_drop]
    simp only [createEntry, Prog.bind_apply, hslot io alloc hio, hfull _ alloc (hio.drop k), Prog.obind_some,
      Prog.pure_apply]

theorem createEntry_leak (hm : fs.Mounted) (hheads : fs.Heads d l)
    (hfind : (fs.header.dirSlots d l).find? fs.reusable = none) (hlist : fs.freeList = a :: m) (ent : Fat16Directory) :
    ∃ n, createEntry d ent (fs.withFaults (writeFails n)) =
      some (none, (fs.setFat a FAT16_EOC).withFaults []) := by
  obtain ⟨x, k, -, hslot⟩ := fat16DirAllocSlot_append hm hheads hfind
  obtain ⟨n, hleak⟩ := appendCluster_leak hm hlist x
  have hrun := hslot (writeFails (k + n)) [] (readsOk_writeFails _)
  rw [drop_writeFails, Fat16.withOutcomes_nil hm.noFaults, Fat16.withOutcomes_nil hm.noFaults, hleak] at hrun
  refine ⟨k + n, ?_⟩
  simp only [createEntry, Prog.bind_apply, hrun, Prog.obind_some, Prog.pure_apply]

theorem zalloc_outcomes (fs : Fat16) : ∃ ok alloc, zalloc fs = some (ok, fs.withOutcomes fs.ioFaults alloc) ∧
    (fs.allocFaults = [] → ok = true ∧ alloc = []) := by
  unfold zalloc
  cases hf : fs.allocFaults with
  | nil =>
    have hsame : fs.withOutcomes fs.ioFaults [] = fs := by
      rw [← hf]
      rfl
    exact ⟨true, [], by rw [hsame], fun _ => ⟨rfl, rfl⟩⟩
  | cons fault rest => exact ⟨!fault, rest, rfl, fun h => by cases h⟩

theorem fat16MakeInode_outcomes (fs : Fat16) (ent : Fat16Directory) (loc : DirLoc) :
    ∃ r alloc, fat16MakeInode ent loc fs = some (r, fs.withOutcomes fs.ioFaults alloc) ∧
      (fs.allocFaults = [] → r ≠ none) := by
  obtain ⟨ok, alloc, hfirst, hok⟩ := zalloc_outcomes fs
  cases ok with
  | false =>
    refine ⟨none, alloc, ?_, fun h => absurd (hok h).1 (by decide)⟩
    simp only [fat16MakeInode, Prog.bind_apply, hfirst, Prog.obind_some, Bool.false_eq_true, if_false, Prog.pure_apply]
  | true =>
    obtain ⟨ok', alloc', hsecond, hok'⟩ := zalloc_outcomes (fs.withOutcomes fs.ioFaults alloc)
    refine ⟨if ok' then some (Inode.ofEntry ent loc) else none, alloc', ?_, fun h => ?_⟩
    · simp only [fat16MakeInode, Prog.bind_apply, hfirst, Prog.obind_some, if_true, hsecond]
      cases ok' with
      | false => rfl
      | true => rfl
    · rw [(hok' (hok h).2).1, if_pos rfl]
      simp

/-- The end of `fat16_create` leaves the volume alone, or the entry in its slot. -/
theorem placeEntry_outcomes (fs : Fat16) (loc : DirLoc) (ent : Fat16Directory) :
    ∃ r io alloc, placeEntry loc ent fs = some (r, fs.withOutcomes io alloc) ∧ r = none ∨
      placeEntry loc ent fs = some (r, (fs.setEntry loc ent).withOutcomes io alloc) ∧
        (fs.allocFaults = [] → r ≠ none) := by
  obtain ⟨ok, rest, ⟨hwrite, rfl⟩ | ⟨hwrite, rfl⟩⟩ := fat16DirWrite_cases fs loc ent
  · refine ⟨none, rest, fs.allocFaults, .inl ⟨?_, rfl⟩⟩
    simp only [placeEntry, Prog.bind_apply, hwrite, Prog.obind_some, Bool.false_eq_true, if_false, Prog.pure_apply]
    rfl
  · obtain ⟨r, alloc, hmake, hr⟩ := fat16MakeInode_outcomes ((fs.setEntry loc ent).withFaults rest) ent loc
    refine ⟨r, rest, alloc, .inr ⟨?_, hr⟩⟩
    simp only [placeEntry, Prog.bind_apply, hwrite, Prog.obind_some, if_true, hmake]
    rfl

/-- The inode of a new entry cannot be allocated. -/
theorem placeEntry_noInode (fs : Fat16) (loc : DirLoc) (ent : Fat16Directory) :
    placeEntry loc ent (fs.withOutcomes [] [true]) = some (none, (fs.setEntry loc ent).withOutcomes [] []) := rfl

theorem not_refused {e : Option Fat16Directory} (h : ¬fs.Refused d l name e) :
    fs.readOnly = false ∧ ∃ ent, e = some ent ∧ fs.findIn name (fs.header.dirSlots d l) = none := by
  simp only [Fat16.Refused, not_or, not_not, Bool.not_eq_true] at h
  obtain ⟨hro, hfill, hnew⟩ := h
  obtain ⟨ent, hent⟩ := Option.ne_none_iff_exists'.mp hfill
  exact ⟨hro, ent, hent, hnew⟩

/-- A refused name leaves no trace. -/
theorem leavesNoTrace_refused (hm : fs.Mounted) (hown : fs.Owns d l)
    (href : fs.Refused d l name (fat16FillEntry now name attributes)) (go : Fat16 → Fat16Directory → Fs (Option Inode))
    {io : List (IoOp → ℕ → Bool)} (hio : ReadsOk io) (alloc : List Bool) :
    LeavesNoTrace (enterName now d name attributes go) d (fs.withOutcomes io alloc) := by
  obtain ⟨io', hrun⟩ := enterName_refused hm hown href go hio alloc
  exact leavesNoTrace_of_outcomes hrun

/-- **Failing writes alone** show in a directory that has to be prolonged, and nowhere else. -/
theorem create_writes_iff (hm : fs.Mounted) (hown : fs.Owns d l) (hro : fs.readOnly = false)
    (hent : fat16FillEntry now name attributes = some ent) (hnew : fs.findIn name (fs.header.dirSlots d l) = none) :
    (∀ io, ReadsOk io → LeavesNoTrace (enterName now d name attributes fun _ ent => createEntry d ent) d
      (fs.withOutcomes io [])) ↔
    (d = 0 ∨ (fs.header.dirSlots d l).find? fs.reusable ≠ none ∨ fs.freeList = []) := by
  obtain ⟨k, hgo⟩ := enterName_goes hm hown hro hent hnew
  constructor
  · intro h
    by_contra hcond
    simp only [not_or, not_not] at hcond
    obtain ⟨hd, hfind, hlist⟩ := hcond
    obtain ⟨a, m, hlist⟩ := List.exists_cons_of_ne_nil hlist
    obtain ⟨n, hleak⟩ := createEntry_leak hm (hown.resolve_left fun h0 => hd h0.1) hfind hlist ent
    have hrun := hgo (fun _ ent => createEntry d ent) (writeFails (k + n)) [] (readsOk_writeFails _)
    have hclean := h (writeFails (k + n)) (readsOk_writeFails _)
    rw [drop_writeFails, Fat16.withOutcomes_nil hm.noFaults, Fat16.withOutcomes_nil hm.noFaults, hleak] at hrun
    rw [Fat16.withOutcomes_nil hm.noFaults] at hclean
    exact not_leavesNoTrace_leak hm hown hlist hrun hclean
  · intro hcond io hio
    cases hfind : (fs.header.dirSlots d l).find? fs.reusable with
    | none =>
      obtain ⟨k', hno⟩ := createEntry_noSlot hm hown hfind
        (hcond.imp id fun h => h.resolve_left fun hne => hne hfind) ent
      apply leavesNoTrace_of_outcomes
      rw [hgo _ io [] hio, hno _ [] (hio.drop k)]
    | some loc =>
      obtain ⟨k', hre⟩ := createEntry_reused hm hown hfind ent
      have hrun := hgo (fun _ ent => createEntry d ent) io [] hio
      rw [hre _ [] (hio.drop k)] at hrun
      obtain ⟨r, io', alloc', ⟨hplace, rfl⟩ | ⟨hplace, hr⟩⟩ := placeEntry_outcomes
        (fs.withOutcomes ((io.drop k).drop k') []) loc ent
      · exact leavesNoTrace_of_outcomes (hrun.trans hplace)
      · obtain ⟨ino, rfl⟩ := Option.ne_none_iff_exists'.mp (hr rfl)
        exact leavesNoTrace_of_some (hrun.trans hplace)

/-- An entry whose inode could not be allocated stays: this is a trace unless nobody sees it. -/
theorem leavesNoTrace_entry_iff {op : Fs (Option Inode)} {io io' : List (IoOp → ℕ → Bool)} {alloc alloc' : List Bool}
    (hm : fs.Mounted) (hown : fs.Owns d l) (hfind : (fs.header.dirSlots d l).find? fs.reusable = some loc)
    (hfirst : ent.first ≠ FAT16_DIR_ENTRY_END)
    (h : op (fs.withOutcomes io alloc) = some (none, (fs.setEntry loc ent).withOutcomes io' alloc')) :
    LeavesNoTrace op d (fs.withOutcomes io alloc) ↔
      fat16EntryValid ent = false ∧ fs.exposed (fs.header.dirSlots d l) = [] := by
  rw [← setEntry_unnoticed_iff hm hown hfind hfirst]
  constructor
  · intro hclean y e
    have hlists := (hclean _ h).1 y e
    rw [Fat16.lists_withOutcomes, Fat16.lists_withOutcomes] at hlists
    exact hlists
  · intro hsame fs1 h1
    rw [h] at h1
    obtain rfl : (fs.setEntry loc ent).withOutcomes io' alloc' = fs1 := by simpa using h1
    refine ⟨fun y e => ?_, fun b hb => .inl ?_⟩
    · rw [Fat16.lists_withOutcomes, Fat16.lists_withOutcomes]
      exact hsame y e
    · obtain ⟨hmin, hin, hfree⟩ := Fat16.mem_freeList.mp hb
      have hp := hown.proper hm.sound (List.mem_of_find?_eq_some hfind)
      refine Fat16.mem_freeList.mpr ⟨hmin, hin, ?_⟩
      show (fs.setEntry loc ent).fatAt b = FAT16_FREE_CLUSTER
      rw [Fat16.setEntry_fatAt hm.sound hp ent hin]
      exact hfree

/-- **Failing allocations** show as soon as the directory has a slot for the entry. -/
theorem create_allocs_iff (hm : fs.Mounted) (hown : fs.Owns d l) (hro : fs.readOnly = false)
    (hent : fat16FillEntry now name attributes = some ent) (hnew : fs.findIn name (fs.header.dirSlots d l) = none)
    (hz : 0 ∉ name) (hattr : attributes = FAT16_ATTR_ARCHIVE ∨ attributes = FAT16_ATTR_DIRECTORY) :
    (∀ io alloc, ReadsOk io → LeavesNoTrace (enterName now d name attributes fun _ ent => createEntry d ent) d
      (fs.withOutcomes io alloc)) ↔
    (fs.header.dirSlots d l).find? fs.reusable = none ∧ (d = 0 ∨ fs.freeList = []) ∨
      (fs.header.dirSlots d l).find? fs.reusable ≠ none ∧ name.all printable = false ∧
        fs.exposed (fs.header.dirSlots d l) = [] := by
  have hfirst := fat16FillEntry_first hent hz
  obtain ⟨k, hgo⟩ := enterName_goes hm hown hro hent hnew
  cases hfind : (fs.header.dirSlots d l).find? fs.reusable with
  | none =>
    simp only [true_and, ne_eq, not_true_eq_false, false_and, or_false]
    constructor
    · intro h
      have hcond := (create_writes_iff hm hown hro hent hnew).mp fun io hio => h io [] hio
      exact hcond.imp id fun hc => hc.resolve_left fun hne => hne hfind
    · intro hno io alloc hio
      obtain ⟨k', hnone⟩ := createEntry_noSlot hm hown hfind hno ent
      apply leavesNoTrace_of_outcomes
      rw [hgo _ io alloc hio, hnone _ alloc (hio.drop k)]
  | some loc =>
    obtain ⟨k', hre⟩ := createEntry_reused hm hown hfind ent
    have hrun : ∀ io alloc, ReadsOk io → enterName now d name attributes (fun _ ent => createEntry d ent)
        (fs.withOutcomes io alloc) = placeEntry loc ent (fs.withOutcomes ((io.drop k).drop k') alloc) := by
      intro io alloc hio
      rw [hgo _ io alloc hio, hre _ alloc (hio.drop k)]
    simp only [reduceCtorEq, false_and, false_or, ne_eq, not_false_eq_true, true_and]
    constructor
    · intro h
      have hnone : ReadsOk [] := fun fault hf => by cases hf
      have hplace := hrun [] [true] hnone
      rw [List.drop_nil, List.drop_nil, placeEntry_noInode] at hplace
      obtain ⟨hskip, hex⟩ := (leavesNoTrace_entry_iff hm hown hfind hfirst hplace).mp (h [] [true] hnone)
      refine ⟨?_, hex⟩
      by_contra hp
      rw [Bool.not_eq_false] at hp
      rw [(fat16FillEntry_child hent hp hattr).1] at hskip
      cases hskip
    · rintro ⟨hp, hex⟩ io alloc hio
      obtain ⟨r, io', alloc', ⟨hplace, rfl⟩ | ⟨hplace, -⟩⟩ := placeEntry_outcomes
        (fs.withOutcomes ((io.drop k).drop k') alloc) loc ent
      · exact leavesNoTrace_of_outcomes ((hrun io alloc hio).trans hplace)
      · cases r with
        | some ino => exact leavesNoTrace_of_some ((hrun io alloc hio).trans hplace)
        | none =>
          exact (leavesNoTrace_entry_iff hm hown hfind hfirst ((hrun io alloc hio).trans hplace)).mpr
            ⟨fat16FillEntry_unprintable hent hp, hex⟩

/-! ### Making a directory -/

/-- The new cluster is taken and its first sector to be written cannot be. -/
theorem mkdirEntry_leak (hm : fs.Mounted) (hlist : fs.freeList = a :: m) (now : DosStamp) (d : ℕ) (ent : Fat16Directory) :
    ∃ n, mkdirEntry now d fs.header ent (fs.withFaults (writeFails n)) =
      some (none, (fs.setFat a FAT16_EOC).withFaults []) := by
  obtain ⟨k, halloc⟩ := fat16ClusterAlloc_outcomes hm
  have hrun := halloc (writeFails (k + (2 * fs.header.numFats.toNat + 0))) [] (readsOk_writeFails _)
  rw [drop_writeFails, Fat16.withOutcomes_nil hm.noFaults, Fat16.withOutcomes_nil hm.noFaults, hlist,
    allocFirst_writeFails hm.sound] at hrun
  refine ⟨k + (2 * fs.header.numFats.toNat + 0), ?_⟩
  have hfault : ((fs.setFat a FAT16_EOC).withFaults (writeFails 0)).ioFaults = failWrite :: [] := rfl
  cases hspc : fs.header.spc - 1 with
  | zero =>
    simp only [mkdirEntry, Prog.bind_apply, hrun, Prog.obind_some, hspc, zeroSectors, Prog.pure_apply, if_true,
      blkDevWrite_failWrite hfault, Bool.false_eq_true, if_false, Fat16.withFaults_withFaults]
  | succ n =>
    simp only [mkdirEntry, Prog.bind_apply, hrun, Prog.obind_some, hspc, zeroSectors_failWrite hfault,
      Bool.false_eq_true, if_false, Prog.pure_apply, Fat16.withFaults_withFaults]

/-- **A failing write** shows as soon as there is a cluster for the directory. -/
theorem mkdir_writes_iff (hm : fs.Mounted) (hown : fs.Owns d l) (hro : fs.readOnly = false)
    (hent : fat16FillEntry now name attributes = some ent) (hnew : fs.findIn name (fs.header.dirSlots d l) = none) :
    (∀ io alloc, ReadsOk io → LeavesNoTrace (enterName now d name attributes fun fs ent => mkdirEntry now d fs.header ent)
      d (fs.withOutcomes io alloc)) ↔ fs.freeList = [] := by
  obtain ⟨k, hgo⟩ := enterName_goes hm hown hro hent hnew
  constructor
  · intro h
    by_contra hlist
    obtain ⟨a, m, hlist⟩ := List.exists_cons_of_ne_nil hlist
    obtain ⟨n, hleak⟩ := mkdirEntry_leak hm hlist now d ent
    have hrun := hgo (fun fs ent => mkdirEntry now d fs.header ent) (writeFails (k + n)) [] (readsOk_writeFails _)
    have hclean := h (writeFails (k + n)) [] (readsOk_writeFails _)
    rw [drop_writeFails, Fat16.withOutcomes_nil hm.noFaults, Fat16.withOutcomes_nil hm.noFaults,
      Fat16.withFaults_header, hleak] at hrun
    rw [Fat16.withOutcomes_nil hm.noFaults] at hclean
    exact not_leavesNoTrace_leak hm hown hlist hrun hclean
  · intro hlist io alloc hio
    obtain ⟨k', halloc⟩ := fat16ClusterAlloc_outcomes hm
    have hrun := halloc (io.drop k) alloc (hio.drop k)
    rw [hlist, allocFirst, Prog.pure_apply] at hrun
    apply leavesNoTrace_of_outcomes
    rw [hgo _ io alloc hio]
    simp only [mkdirEntry, Prog.bind_apply, hrun, Prog.obind_some, Prog.pure_apply]
    rfl

/-- **A failed create or mkdir leaves no trace** under every failing write exactly when the name is refused, or no
cluster has to be taken; a failing allocation leaves the new entry behind as soon as there is a slot for it. -/
theorem leavesNoTrace_iff (hm : fs.Mounted) (hown : fs.Owns dir.ent.cluster l) (hz : 0 ∉ name) :
    ((∀ io, ReadsOk io → LeavesNoTrace (fat16Create now dir name) dir.ent.cluster (fs.withOutcomes io [])) ↔
      fs.Refused dir.ent.cluster l name (fat16FillEntry now name FAT16_ATTR_ARCHIVE) ∨ dir.ent.cluster = 0 ∨
        (fs.header.dirSlots dir.ent.cluster l).find? fs.reusable ≠ none ∨ fs.freeList = []) ∧
    ((∀ io alloc, ReadsOk io → LeavesNoTrace (fat16Create now dir name) dir.ent.cluster (fs.withOutcomes io alloc)) ↔
      fs.Refused dir.ent.cluster l name (fat16FillEntry now name FAT16_ATTR_ARCHIVE) ∨
        (fs.header.dirSlots dir.ent.cluster l).find? fs.reusable = none ∧
          (dir.ent.cluster = 0 ∨ fs.freeList = []) ∨
        (fs.header.dirSlots dir.ent.cluster l).find? fs.reusable ≠ none ∧ name.all printable = false ∧
          fs.exposed (fs.header.dirSlots dir.ent.cluster l) = []) ∧
    ((∀ io alloc, ReadsOk io → LeavesNoTrace (fat16Mkdir now dir name) dir.ent.cluster (fs.withOutcomes io alloc)) ↔
      fs.Refused dir.ent.cluster l name (fat16FillEntry now name FAT16_ATTR_DIRECTORY) ∨ fs.freeList = []) := by
  rw [fat16Create, fat16Mkdir]
  refine ⟨?_, ?_, ?_⟩
  · by_cases href : fs.Refused dir.ent.cluster l name (fat16FillEntry now name FAT16_ATTR_ARCHIVE)
    · exact iff_of_true (fun io hio => leavesNoTrace_refused hm hown href _ hio _) (.inl href)
    · obtain ⟨hro, ent, hent, hnew⟩ := not_refused href
      rw [create_writes_iff hm hown hro hent hnew, or_iff_right href]
  · by_cases href : fs.Refused dir.ent.cluster l name (fat16FillEntry now name FAT16_ATTR_ARCHIVE)
    · exact iff_of_true (fun io alloc hio => leavesNoTrace_refused hm hown href _ hio _) (.inl href)
    · obtain ⟨hro, ent, hent, hnew⟩ := not_refused href
      rw [create_allocs_iff hm hown hro hent hnew hz (.inl rfl), or_iff_right href]
  · by_cases href : fs.Refused dir.ent.cluster l name (fat16FillEntry now name FAT16_ATTR_DIRECTORY)
    · exact iff_of_true (fun io alloc hio => leavesNoTrace_refused hm hown href _ hio _) (.inl href)
    · obtain ⟨hro, ent, hent, hnew⟩ := not_refused href
      rw [mkdir_writes_iff hm hown hro hent hnew, or_iff_right href]

end Create

/-- Creating `"foo"` in an empty root directory: no failing write leaves a trace. -/
theorem leavesNoTrace_iff_emptyVolume : emptyVolume.Mounted ∧ ∀ io, ReadsOk io →
    LeavesNoTrace (fat16Create ⟨0, 0⟩ rootInode [0x66, 0x6F, 0x6F]) 0 (emptyVolume.withOutcomes io []) := by
  have hm : emptyVolume.Mounted := smallVolume_mounted _ _ _
  have hroot : emptyVolume.Owns rootInode.ent.cluster [] := .inl ⟨rfl, rfl⟩
  exact ⟨hm, (leavesNoTrace_iff hm hroot (by decide)).1.mpr (.inr (.inl rfl))⟩

/-- Creating `"foo"` in an empty root directory when the inode cannot be allocated: the call returns `-1` and the
directory lists the entry. -/
theorem not_leavesNoTrace_foo : emptyVolume.Mounted ∧
    ¬LeavesNoTrace (fat16Create ⟨0, 0⟩ rootInode [0x66, 0x6F, 0x6F]) 0 (emptyVolume.withOutcomes [] [true]) := by
  have hm : emptyVolume.Mounted := smallVolume_mounted _ _ _
  have hroot : emptyVolume.Owns 0 [] := .inl ⟨rfl, rfl⟩
  have hslot : (emptyVolume.header.dirSlots 0 []).find? emptyVolume.reusable = some ⟨2, 0⟩ := by decide
  have hent : fat16FillEntry ⟨0, 0⟩ [0x66, 0x6F, 0x6F] FAT16_ATTR_ARCHIVE = some fooEntry := by decide
  obtain ⟨k, hgo⟩ := enterName_goes hm hroot rfl hent (by decide)
  obtain ⟨k', hre⟩ := createEntry_reused hm hroot hslot fooEntry
  have hnone : ReadsOk [] := fun fault hf => by cases hf
  have hrun := hgo (fun _ ent => createEntry 0 ent) [] [true] hnone
  rw [List.drop_nil, hre [] [true] hnone, List.drop_nil, placeEntry_noInode] at hrun
  refine ⟨hm, fun h => ?_⟩
  have hskip := ((leavesNoTrace_entry_iff hm hroot hslot (by decide) hrun).mp h).1
  revert hskip
  decide

end LizardOs.Fat
