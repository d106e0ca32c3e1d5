import LizardOs.Fat.Mount
import LizardOs.Lib.Built

/-!
# Staying inside the volume

Cluster numbers come from the table and from directory entries, sixteen bits each, and the code follows them
behind a fixed range test or none at all.  `Confined` says of a routine that every sector it passes to the device
lies below the end of the volume and every table slot it asks for lies in the table.  With a sound geometry all the
calls are confined exactly on a volume so large that every sixteen-bit number is a cluster of it
(`callsConfined_iff`).
-/

namespace LizardOs.Fat

open LizardOs.Lib

variable {h : FatHeader} {T : ℕ → Prop} {α κ : Type}

/-- The steps a routine may take: transfers of sectors below the end of the volume, allocations, updates of the
table in RAM, and accesses to the slots in `T` of the table. -/
inductive VolumeStep (h : FatHeader) (T : ℕ → Prop) : ∀ α : Type, (α → Prop) → Fs α → Prop
  | read {s : ℕ} (hs : s < h.totalSectors) : VolumeStep h T (Option Buf) (fun _ => True) (blkDevRead s)
  | write {s : ℕ} {buf : Buf} (hs : s < h.totalSectors) : VolumeStep h T Bool (fun _ => True) (blkDevWrite s buf)
  | zalloc : VolumeStep h T Bool (fun _ => True) zalloc
  | setCache {byte value : ℕ} : VolumeStep h T Unit (fun _ => True) (Prog.modify fun fs => fs.setCache byte value)
  | fatGet {c : ℕ} (hc : T c) :
      VolumeStep h T (Option ℕ) (fun r => ∀ v, r = some v → v < 65536) (fat16FatGet c)
  | fatSet {c value : ℕ} (hc : T c) : VolumeStep h T Bool (fun _ => True) (fat16FatSet c value)

/-- What the code goes by without a transfer. -/
def Fat16.look (fs : Fat16) : FatHeader × Option Buf × Bool := (fs.header, fs.fatCache, fs.readOnly)

/-- The routine takes steps of the set only, on volumes that `sees` describes, and its answer satisfies `Q`. -/
abbrev Within (sees : Fat16 → Prop) (step : StepSet Fat16) (Q : α → Prop) (m : Fs α) : Prop :=
  Built Fat16.look sees step Q m

/-- On volumes with header `h` the routine takes allowed steps only, and its answer satisfies `Q`. -/
abbrev Inside (h : FatHeader) (T : ℕ → Prop) (Q : α → Prop) (m : Fs α) : Prop :=
  Within (fun fs => fs.header = h) (VolumeStep h T) Q m

/-- What keeps every routine to the allowed steps: it may transfer the sectors in `D`, those of the clusters in `C` among
them, and it may ask for the links of the clusters in `C` and set them, which lead to clusters in `C` again.  A cluster
that the allocator finds free is in `C`. -/
structure FatHeader.Roomy (h : FatHeader) (sees : Fat16 → Prop) (step : StepSet Fat16) (D C : ℕ → Prop) : Prop where
  header : ∀ fs, sees fs → fs.header = h
  read : ∀ s, D s → step (Option Buf) (fun _ => True) (blkDevRead s)
  write : ∀ s buf, D s → step Bool (fun _ => True) (blkDevWrite s buf)
  zalloc : step Bool (fun _ => True) zalloc
  cluster : 0 < h.spc
  root : ∀ j < h.rootDirSectors, D (h.rootDirLba + j)
  sectors : ∀ c, C c → ∀ s < h.spc, D (h.clusterToLba c + s)
  small : ∀ c, C c → c < 65536
  get : ∀ c, C c → Within sees step (fun r => ∀ v, r = some v → fat16ClusterValid v = true → C v) (fat16FatGet c)
  probe : ∀ c, FAT16_CLUSTER_MIN ≤ c → c ≤ h.lastCluster →
    Within sees step (fun r => r = some FAT16_FREE_CLUSTER → C c) (fat16FatGet c)
  set : ∀ c value, C c → value < 65536 → (fat16ClusterValid value = true → C value) →
    Within sees step (fun _ => True) (fat16FatSet c value)

theorem not_valid_of_eq {c : ℕ} (hc : fat16ClusterValid c = false) {p : Prop} (h : fat16ClusterValid c = true) : p := by
  rw [hc] at h
  cases h

namespace FatHeader.Roomy

variable {sees : Fat16 → Prop} {step : StepSet Fat16} {D C : ℕ → Prop} (hr : h.Roomy sees step D C)
include hr

theorem blkDevRead {s : ℕ} (hs : D s) : Within sees step (fun _ => True) (blkDevRead s) := .step (hr.read s hs)

theorem blkDevWrite {s : ℕ} (buf : Buf) (hs : D s) : Within sees step (fun _ => True) (blkDevWrite s buf) :=
  .step (hr.write s buf hs)

/-! ### Directory slots -/

theorem fat16DirRead {loc : DirLoc} (hloc : D loc.lba) : Within sees step (fun _ => True) (fat16DirRead loc) := by
  refine .bind (hr.blkDevRead hloc) fun r _ => ?_
  cases r with
  | none => exact .pure trivial
  | some buf => exact .pure trivial

theorem fat16DirWrite {loc : DirLoc} (ent : Fat16Directory) (hloc : D loc.lba) :
    Within sees step (fun _ => True) (fat16DirWrite loc ent) := by
  refine .bind (hr.blkDevRead hloc) fun r _ => ?_
  cases r with
  | none => exact .pure trivial
  | some buf => exact hr.blkDevWrite _ hloc

theorem fat16MakeInode (ent : Fat16Directory) (loc : DirLoc) :
    Within sees step (fun _ => True) (fat16MakeInode ent loc) := by
  refine .bind (.step hr.zalloc) fun ok _ => .ite (fun _ => ?_) fun _ => .pure trivial
  exact .bind (.step hr.zalloc) fun ok' _ => .ite (fun _ => .pure trivial) fun _ => .pure trivial

theorem zeroSectors (n : ℕ) : ∀ lba, (∀ j < n, D (lba + j)) → Within sees step (fun _ => True) (zeroSectors n lba) := by
  induction n with
  | zero =>
    intro lba _
    exact .pure trivial
  | succ n ih =>
    intro lba hlba
    refine .bind (hr.blkDevWrite _ (hlba 0 n.succ_pos)) fun ok _ => .ite (fun _ => ?_) fun _ => .pure trivial
    refine ih (lba + 1) fun j hj => ?_
    rw [Nat.add_assoc, Nat.add_comm 1 j]
    exact hlba (j + 1) (by omega)

/-! ### Chains -/

theorem fat16NextCluster {c : ℕ} (hc : C c) :
    Within sees step (fun v => fat16ClusterValid v = true → C v) (fat16NextCluster c) := by
  refine .bind (hr.get c hc) fun r hv => ?_
  cases r with
  | none => exact .pure (not_valid_of_eq (by decide))
  | some next => exact .pure (hv next rfl)

theorem clusterAllocFrom (n : ℕ) : ∀ c, FAT16_CLUSTER_MIN ≤ c → (∀ k < n, c + k ≤ h.lastCluster) →
    Within sees step (fun r => ∀ v, r = some v → C v) (clusterAllocFrom n c) := by
  induction n with
  | zero =>
    intro c _ _
    refine .pure fun v hv => ?_
    cases hv
  | succ n ih =>
    intro c hmin hc
    have hnone : ∀ v, (none : Option ℕ) = some v → C v := by
      intro v hv
      cases hv
    refine .bind (hr.probe c hmin (hc 0 n.succ_pos)) fun r hfree => ?_
    cases r with
    | none => exact .pure hnone
    | some v =>
      refine .ite (fun hv => ?_) fun _ => ih (c + 1) (by omega) fun k hk => ?_
      · have hin : C c := hfree (congrArg some hv)
        refine .bind (hr.set c _ hin (by decide) (not_valid_of_eq (by decide))) fun ok _ =>
          .ite (fun _ => .pure ?_) fun _ => .pure hnone
        intro v' hv'
        obtain rfl := Option.some.inj hv'
        exact hin
      · rw [Nat.add_assoc, Nat.add_comm 1 k]
        exact hc (k + 1) (by omega)

theorem fat16ClusterAlloc : Within sees step (fun r => ∀ v, r = some v → C v) fat16ClusterAlloc := by
  refine .get (fun fs fs' heq => ?_) fun fs hfs => ?_
  · rw [show fs.header = fs'.header from congrArg Prod.fst heq]
  · rw [hr.header fs hfs]
    exact hr.clusterAllocFrom _ _ le_rfl fun k hk => by omega

theorem chainFreeFrom (n : ℕ) : ∀ c, (fat16ClusterValid c = true → C c) →
    Within sees step (fun _ => True) (chainFreeFrom n c) := by
  induction n with
  | zero =>
    intro c _
    exact .diverge
  | succ n ih =>
    intro c hc
    refine .ite (fun hvalid => .bind (hr.get c (hc hvalid)) fun r hv => ?_) fun _ => .pure trivial
    cases r with
    | none => exact .pure trivial
    | some next =>
      exact .bind (hr.set c _ (hc hvalid) (by decide) (not_valid_of_eq (by decide))) fun ok _ =>
        .ite (fun _ => ih next (hv next rfl)) fun _ => .pure trivial

theorem chainStep {c : ℕ} (hc : C c) : Within sees step (fun v => v ≠ 0 → C v) (chainStep c) := by
  refine .bind (hr.fat16NextCluster hc) fun next hnext => .ite (fun hvalid => .pure fun _ => hnext hvalid) fun _ => ?_
  refine .bind hr.fat16ClusterAlloc fun r hv => ?_
  cases r with
  | none => exact .pure fun hne => absurd rfl hne
  | some new =>
    have hnew := hv new rfl
    exact .bind (hr.set c new hc (hr.small new hnew) fun _ => hnew) fun ok _ =>
      .ite (fun _ => .pure fun _ => hnew) fun _ => .pure fun hne => absurd rfl hne

theorem lastClusterFrom (n : ℕ) : ∀ last, C last → ∀ c, (fat16ClusterValid c = true → C c) →
    Within sees step C (lastClusterFrom n last c) := by
  induction n with
  | zero =>
    intro last _ c _
    exact .diverge
  | succ n ih =>
    intro last hlast c hc
    refine .ite (fun hvalid => ?_) fun _ => .pure hlast
    exact .bind (hr.fat16NextCluster (hc hvalid)) fun next hnext => ih c (hc hvalid) next hnext

/-! ### Reading and writing -/

theorem readSkip (cs n : ℕ) : ∀ c, C c → ∀ skip,
    Within sees step (fun r => ∀ p, r = some p → C p.1) (readSkip cs n c skip) := by
  induction n with
  | zero =>
    intro c _ skip
    exact .diverge
  | succ n ih =>
    intro c hc skip
    refine .ite (fun _ => ?_) fun _ => .pure fun p hp => ?_
    · refine .bind (hr.fat16NextCluster hc) fun next hnext => ?_
      refine .ite (fun hvalid => ih next (hnext hvalid) _) fun _ => .pure fun p hp => ?_
      cases hp
    · obtain rfl := Option.some.inj hp
      exact hc

theorem readSectors (ss count n : ℕ) : ∀ lba t, (∀ j < n, D (lba + j)) →
    Within sees step (fun _ => True) (readSectors ss count n lba t) := by
  induction n with
  | zero =>
    intro lba t _
    exact .pure trivial
  | succ n ih =>
    intro lba t hlba
    have hrest : ∀ j < n, D (lba + 1 + j) := fun j hj => by
      rw [Nat.add_assoc, Nat.add_comm 1 j]
      exact hlba (j + 1) (by omega)
    refine .ite (fun _ => .ite (fun _ => ih _ _ hrest) fun _ => ?_) fun _ => .pure trivial
    refine .bind (hr.blkDevRead (hlba 0 n.succ_pos)) fun r _ => ?_
    cases r with
    | none => exact .pure trivial
    | some sector => exact ih _ _ hrest

theorem readClusters (count n : ℕ) : ∀ c, (fat16ClusterValid c = true → C c) → ∀ t,
    Within sees step (fun _ => True) (readClusters count n c t) := by
  induction n with
  | zero =>
    intro c _ t
    exact .diverge
  | succ n ih =>
    intro c hc t
    refine .ite (fun hloop => .get (fun fs fs' heq => ?_) fun fs hfs => ?_) fun _ => .pure trivial
    · rw [show fs.header = fs'.header from congrArg Prod.fst heq]
    · have hin := hc (Bool.and_eq_true_iff.mp hloop).1
      rw [hr.header fs hfs]
      refine .bind (hr.readSectors _ _ _ _ _ (hr.sectors c hin)) fun t' _ => .ite (fun _ => .pure trivial) fun _ => ?_
      exact .bind (hr.fat16NextCluster hin) fun next hnext => ih next hnext t'

theorem fat16Read {ino : Inode} (buf : Buf) (count offset : ℕ) (hfirst : C ino.ent.cluster) :
    Within sees step (fun _ => True) (fat16Read ino buf count offset) := by
  refine .get (fun fs fs' heq => ?_) fun fs _ => .ite (fun _ => .pure trivial) fun _ => ?_
  · rw [show fs.header = fs'.header from congrArg Prod.fst heq]
  refine .bind (hr.readSkip _ _ _ hfirst _) fun r hp => ?_
  cases r with
  | none => exact .pure trivial
  | some p =>
    refine .bind (hr.readClusters _ _ p.1 (fun _ => hp p rfl) _) fun t _ => ?_
    exact .ite (fun _ => .pure trivial) fun _ => .pure trivial

theorem writeSectors (ss count n : ℕ) : ∀ lba t, (∀ j < n, D (lba + j)) →
    Within sees step (fun _ => True) (writeSectors ss count n lba t) := by
  induction n with
  | zero =>
    intro lba t _
    exact .pure trivial
  | succ n ih =>
    intro lba t hlba
    have hrest : ∀ j < n, D (lba + 1 + j) := fun j hj => by
      rw [Nat.add_assoc, Nat.add_comm 1 j]
      exact hlba (j + 1) (by omega)
    have hput : ∀ (sector : Buf) (chunk : ℕ), Within sees step (fun _ => True) (do
        if ← Fat.blkDevWrite lba (splice sector t.skip (fun j => t.buf (t.done + j)) chunk) then
          Fat.writeSectors ss count n (lba + 1) { t with skip := 0, done := (t.done + chunk) % 2 ^ 32 }
        else Pure.pure { t with failed := true }) := fun sector chunk =>
      .bind (hr.blkDevWrite _ (hlba 0 n.succ_pos)) fun ok _ => .ite (fun _ => ih _ _ hrest) fun _ => .pure trivial
    refine .ite (fun _ => .ite (fun _ => ih _ _ hrest) fun _ => ?_) fun _ => .pure trivial
    refine .ite (fun _ => ?_) fun _ => ?_
    · refine .bind (hr.blkDevRead (hlba 0 n.succ_pos)) fun old _ => ?_
      cases old with
      | none => exact .pure trivial
      | some sector => exact hput sector _
    · refine .bind (.pure trivial) fun old (_ : True) => ?_
      cases old with
      | none => exact .pure trivial
      | some sector => exact hput sector _

theorem writeSeek (cs offset n : ℕ) : ∀ pos c, C c →
    Within sees step (fun c' => c' ≠ 0 → C c') (writeSeek cs offset n pos c) := by
  induction n with
  | zero =>
    intro pos c _
    exact .diverge
  | succ n ih =>
    intro pos c hc
    refine .ite (fun _ => ?_) fun _ => .pure fun _ => hc
    refine .bind (hr.chainStep hc) fun next hnext => ?_
    exact .ite (fun _ => .pure fun hne => absurd rfl hne) fun hne => ih _ next (hnext hne)

theorem writeClusters (count n : ℕ) : ∀ c, C c → ∀ t,
    Within sees step (fun _ => True) (writeClusters count n c t) := by
  induction n with
  | zero =>
    intro c _ t
    exact .diverge
  | succ n ih =>
    intro c hc t
    refine .ite (fun _ => .get (fun fs fs' heq => ?_) fun fs hfs => ?_) fun _ => .pure trivial
    · rw [show fs.header = fs'.header from congrArg Prod.fst heq]
    · rw [hr.header fs hfs]
      refine .bind (hr.writeSectors _ _ _ _ _ (hr.sectors c hc)) fun t' _ => .ite (fun _ => .pure trivial) fun _ => ?_
      refine .ite (fun _ => ?_) fun _ => .pure trivial
      exact .bind (hr.chainStep hc) fun next hnext =>
        .ite (fun _ => .pure trivial) fun hne => ih next (hnext hne) t'

theorem writeFirst {ino : Inode} (hfirst : ino.ent.cluster ≠ 0 → C ino.ent.cluster) :
    Within sees step (fun r => ∀ ino', r = some ino' → ino'.loc = ino.loc ∧ C ino'.ent.cluster) (writeFirst ino) := by
  refine .ite (fun _ => .bind hr.fat16ClusterAlloc fun r hv => ?_) fun hne => .pure fun ino' hino' => ?_
  · cases r with
    | none =>
      refine .pure fun ino' hino' => ?_
      cases hino'
    | some c =>
      refine .pure fun ino' hino' => ?_
      obtain rfl := Option.some.inj hino'
      refine ⟨rfl, ?_⟩
      show C (UInt16.ofNat c).toNat
      rw [UInt16.toNat_ofNat', Nat.mod_eq_of_lt (hr.small c (hv c rfl))]
      exact hv c rfl
  · obtain rfl := Option.some.inj hino'
    exact ⟨rfl, hfirst hne⟩

theorem fat16Write (now : DosStamp) {ino : Inode} (buf : Buf) (count offset : ℕ) (hloc : D ino.loc.lba)
    (hfirst : ino.ent.cluster ≠ 0 → C ino.ent.cluster) :
    Within sees step (fun _ => True) (fat16Write now ino buf count offset) := by
  refine .get (fun fs fs' heq => ?_) fun fs _ => .ite (fun _ => .pure trivial) fun _ =>
    .ite (fun _ => .pure trivial) fun _ => ?_
  · rw [show fs.header = fs'.header from congrArg Prod.fst heq,
      show fs.readOnly = fs'.readOnly from congrArg (fun p => p.2.2) heq]
  refine .bind (hr.writeFirst hfirst) fun r hino => ?_
  cases r with
  | none => exact .pure trivial
  | some ino' =>
    obtain ⟨hsame, hcluster⟩ := hino ino' rfl
    refine .bind (hr.writeSeek _ _ _ _ _ hcluster) fun c hc => .ite (fun _ => .pure trivial) fun hne => ?_
    refine .bind (hr.writeClusters _ _ c (hc hne) _) fun t _ => ?_
    refine .bind (hr.fat16DirWrite _ ?_) fun ok _ => .pure trivial
    rw [Inode.written_loc, hsame]
    exact hloc

/-! ### Scans and walks -/

section Scan

variable {slot : SlotCb κ} {I : κ → Prop}
  (hslot : ∀ c0 loc ctx, D loc.lba → I ctx → Within sees step (fun p => I p.2) (slot c0 loc ctx))
include hslot

omit hr in
theorem scanSector (buf : Buf) {lba : ℕ} (hlba : D lba) (n : ℕ) : ∀ i ctx, I ctx →
    Within sees step (fun p => I p.2) (scanSector slot buf lba n i ctx) := by
  induction n with
  | zero =>
    intro i ctx hctx
    exact .pure hctx
  | succ n ih =>
    intro i ctx hctx
    exact .bind (hslot _ _ ctx hlba hctx) fun p hp => .ite (fun _ => .pure hp) fun _ => ih _ _ hp

theorem scanSectors (per n : ℕ) : ∀ lba ctx, (∀ j < n, D (lba + j)) → I ctx →
    Within sees step (fun p => I p.2) (scanSectors slot per n lba ctx) := by
  induction n with
  | zero =>
    intro lba ctx _ hctx
    exact .pure hctx
  | succ n ih =>
    intro lba ctx hlba hctx
    refine .bind (hr.blkDevRead (hlba 0 n.succ_pos)) fun r _ => ?_
    cases r with
    | none => exact .pure hctx
    | some buf =>
      refine .bind (scanSector hslot buf (hlba 0 n.succ_pos) per 0 ctx hctx) fun p hp => ?_
      refine .ite (fun _ => .pure hp) fun _ => ih _ _ (fun j hj => ?_) hp
      rw [Nat.add_assoc, Nat.add_comm 1 j]
      exact hlba (j + 1) (by omega)

theorem scanClusters (n : ℕ) : ∀ c, (fat16ClusterValid c = true → C c) → ∀ ctx, I ctx →
    Within sees step (fun p => I p.2) (scanClusters slot n c ctx) := by
  induction n with
  | zero =>
    intro c _ ctx _
    exact .diverge
  | succ n ih =>
    intro c hc ctx hctx
    refine .ite (fun hvalid => .get (fun fs fs' heq => ?_) fun fs hfs => ?_) fun _ => .pure hctx
    · rw [show fs.header = fs'.header from congrArg Prod.fst heq]
    · rw [hr.header fs hfs]
      refine .bind (hr.scanSectors hslot _ _ _ _ (hr.sectors c (hc hvalid)) hctx) fun p hp =>
        .ite (fun _ => .pure hp) fun _ => ?_
      exact .bind (hr.fat16NextCluster (hc hvalid)) fun next hnext => ih next hnext _ hp

theorem fat16DirScan {first : ℕ} (hfirst : first ≠ 0 → fat16ClusterValid first = true → C first) {ctx : κ}
    (hctx : I ctx) : Within sees step (fun p => I p.2) (fat16DirScan first slot ctx) := by
  refine .get (fun fs fs' heq => ?_) fun fs hfs => .ite (fun _ => ?_) fun hne =>
    hr.scanClusters hslot _ _ (hfirst hne) _ hctx
  · rw [show fs.header = fs'.header from congrArg Prod.fst heq]
  · rw [hr.header fs hfs]
    exact hr.scanSectors hslot _ _ _ _ hr.root hctx

end Scan

section Walk

variable {cb : DirCb κ} (hcb : ∀ e off loc ctx, D loc.lba → Within sees step (fun _ => True) (cb e off loc ctx))
include hcb

omit hr in
theorem walkSector (buf : Buf) {lba : ℕ} (hlba : D lba) (n : ℕ) : ∀ i w,
    Within sees step (fun _ => True) (walkSector cb buf lba n i w) := by
  induction n with
  | zero =>
    intro i w
    exact .pure trivial
  | succ n ih =>
    intro i w
    refine .ite (fun _ => .pure trivial) fun _ => ?_
    exact .bind (hcb _ _ _ _ hlba) fun p _ => .ite (fun _ => .pure trivial) fun _ => ih _ _

theorem walkSectors (per n : ℕ) : ∀ lba w, (∀ j < n, D (lba + j)) →
    Within sees step (fun _ => True) (walkSectors cb per n lba w) := by
  induction n with
  | zero =>
    intro lba w _
    exact .pure trivial
  | succ n ih =>
    intro lba w hlba
    refine .ite (fun _ => .pure trivial) fun _ => .bind (hr.blkDevRead (hlba 0 n.succ_pos)) fun r _ => ?_
    cases r with
    | none => exact .pure trivial
    | some buf =>
      refine .bind (walkSector hcb buf (hlba 0 n.succ_pos) per 0 w) fun w' _ => ?_
      refine .ite (fun _ => .pure trivial) fun _ => ih _ _ fun j hj => ?_
      rw [Nat.add_assoc, Nat.add_comm 1 j]
      exact hlba (j + 1) (by omega)

theorem walkClusters (n : ℕ) : ∀ c, (fat16ClusterValid c = true → C c) → ∀ w,
    Within sees step (fun _ => True) (walkClusters cb n c w) := by
  induction n with
  | zero =>
    intro c _ w
    exact .diverge
  | succ n ih =>
    intro c hc w
    refine .ite (fun hloop => .get (fun fs fs' heq => ?_) fun fs hfs => ?_) fun _ => .pure trivial
    · rw [show fs.header = fs'.header from congrArg Prod.fst heq]
    · have hin := hc (Bool.and_eq_true_iff.mp hloop).1
      rw [hr.header fs hfs]
      refine .bind (hr.walkSectors hcb _ _ _ _ (hr.sectors c hin)) fun w' _ => .ite (fun _ => .pure trivial) fun _ => ?_
      exact .bind (hr.fat16NextCluster hin) fun next hnext => ih next hnext _

theorem fat16WalkDir {first : ℕ} (hfirst : first ≠ 0 → fat16ClusterValid first = true → C first) (ctx : κ) :
    Within sees step (fun _ => True) (fat16WalkDir first cb ctx) := by
  refine .get (fun fs fs' heq => ?_) fun fs hfs => .ite (fun _ => ?_) fun hne => ?_
  · rw [show fs.header = fs'.header from congrArg Prod.fst heq]
  · rw [hr.header fs hfs]
    exact .bind (hr.walkSectors hcb _ _ _ _ hr.root) fun w _ => .pure trivial
  · exact .bind (hr.walkClusters hcb _ _ (hfirst hne) _) fun w _ => .pure trivial

end Walk

/-! ### Making a directory -/

theorem findSlot (name : CStr) (c0 : UInt8) (loc : DirLoc) (ctx : Option (DirLoc × Fat16Directory)) (hloc : D loc.lba) :
    Within sees step (fun _ => True) (findSlot name c0 loc ctx) := by
  refine .ite (fun _ => .pure trivial) fun _ => .ite (fun _ => .pure trivial) fun _ => ?_
  refine .bind (hr.fat16DirRead hloc) fun r _ => ?_
  cases r with
  | none => exact .pure trivial
  | some ent =>
    exact .ite (fun _ => .pure trivial) fun _ => .ite (fun _ => .pure trivial) fun _ => .pure trivial

theorem fat16DirFind {first : ℕ} (hfirst : first ≠ 0 → fat16ClusterValid first = true → C first) (name : CStr) :
    Within sees step (fun _ => True) (fat16DirFind first name) :=
  .bind (hr.fat16DirScan (I := fun _ => True) (fun c0 loc ctx hloc _ => hr.findSlot name c0 loc ctx hloc) hfirst trivial)
    fun _ _ => .pure trivial

theorem appendCluster {last : ℕ} (hlast : C last) :
    Within sees step (fun r => ∀ loc, r = some loc → D loc.lba) (appendCluster last) := by
  have hnone : ∀ loc, (none : Option DirLoc) = some loc → D loc.lba := by
    intro loc hloc
    cases hloc
  refine .bind hr.fat16ClusterAlloc fun r hv => ?_
  cases r with
  | none => exact .pure hnone
  | some new =>
    have hnew := hv new rfl
    have hsectors := hr.sectors new hnew
    refine .bind (hr.set last new hlast (hr.small new hnew) fun _ => hnew) fun ok _ =>
      .ite (fun _ => .get (fun fs fs' heq => ?_) fun fs hfs => ?_) fun _ => .pure hnone
    · rw [show fs.header = fs'.header from congrArg Prod.fst heq]
    · rw [hr.header fs hfs]
      refine .bind (hr.zeroSectors _ _ hsectors) fun ok' _ =>
        .ite (fun _ => .pure fun loc hloc => ?_) fun _ => .pure hnone
      obtain rfl := Option.some.inj hloc
      exact hsectors 0 hr.cluster

theorem fat16DirAllocSlot {first : ℕ} (hfirst : first ≠ 0 → C first) :
    Within sees step (fun r => ∀ loc, r = some loc → D loc.lba) (fat16DirAllocSlot first) := by
  have hnone : ∀ loc, (none : Option DirLoc) = some loc → D loc.lba := by
    intro loc hloc
    cases hloc
  have hslot : ∀ c0 loc (ctx : Option DirLoc), D loc.lba → (∀ loc', ctx = some loc' → D loc'.lba) →
      Within sees step (fun p => ∀ loc', p.2 = some loc' → D loc'.lba) (freeSlot c0 loc ctx) := by
    intro c0 loc ctx hloc hctx
    refine .ite (fun _ => .pure hctx) fun _ => .pure fun loc' hloc' => ?_
    obtain rfl := Option.some.inj hloc'
    exact hloc
  refine .bind (hr.fat16DirScan hslot (fun hne _ => hfirst hne) hnone) fun p hp => .ite (fun _ => .pure hp) fun _ => ?_
  refine .ite (fun _ => .pure hnone) fun hne => ?_
  refine .bind (hr.fat16NextCluster (hfirst hne)) fun c hc => ?_
  exact .bind (hr.lastClusterFrom _ _ (hfirst hne) c hc) fun last hlast => hr.appendCluster hlast

theorem fat16ChainFree {first : ℕ} (hfirst : fat16ClusterValid first = true → C first) :
    Within sees step (fun _ => True) (fat16ChainFree first) := hr.chainFreeFrom _ _ hfirst

theorem mkdirUndo {c : ℕ} (hc : C c) : Within sees step (fun _ => True) (mkdirUndo c) :=
  .bind (hr.fat16ChainFree fun _ => hc) fun _ _ => .pure trivial

theorem enterName {d : ℕ} {go : Fat16 → Fat16Directory → Fs (Option Inode)} (now : DosStamp) (hd : d ≠ 0 → C d)
    (name : CStr) (attributes : UInt8) (hlook : ∀ fs fs' ent, fs.look = fs'.look → go fs ent = go fs' ent)
    (hgo : ∀ fs ent, fs.header = h → Within sees step (fun _ => True) (go fs ent)) :
    Within sees step (fun _ => True) (enterName now d name attributes go) := by
  refine .get (fun fs fs' heq => ?_) fun fs hfs => .ite (fun _ => .pure trivial) fun _ => ?_
  · have hsame : go fs = go fs' := funext fun ent => hlook fs fs' ent heq
    rw [show fs.readOnly = fs'.readOnly from congrArg (fun p => p.2.2) heq, hsame]
  cases fat16FillEntry now name attributes with
  | none => exact .pure trivial
  | some ent =>
    refine .bind (hr.fat16DirFind (fun hne _ => hd hne) name) fun found _ => ?_
    cases found with
    | some p => exact .pure trivial
    | none => exact hgo fs ent (hr.header fs hfs)

theorem mkdirEntry {d : ℕ} (now : DosStamp) (hd : d ≠ 0 → C d) (ent : Fat16Directory) :
    Within sees step (fun _ => True) (mkdirEntry now d h ent) := by
  refine .bind hr.fat16ClusterAlloc fun r hv => ?_
  cases r with
  | none => exact .pure trivial
  | some c =>
    have hc := hv c rfl
    have hsectors := hr.sectors c hc
    have hspc := hr.cluster
    refine .bind (hr.zeroSectors _ _ fun j hj => ?_) fun ok _ => .ite (fun _ => ?_) fun _ => .pure trivial
    · rw [Nat.add_assoc, Nat.add_comm 1 j]
      exact hsectors (j + 1) (by omega)
    refine .bind (hr.blkDevWrite _ (hsectors 0 hspc)) fun ok' _ => .ite (fun _ => ?_) fun _ => .pure trivial
    refine .bind (hr.fat16DirAllocSlot hd) fun slot hslot => ?_
    cases slot with
    | none => exact hr.mkdirUndo hc
    | some loc =>
      refine .bind (hr.fat16DirWrite _ (hslot loc rfl)) fun ok'' _ => .ite (fun _ => ?_) fun _ => hr.mkdirUndo hc
      refine .bind (hr.fat16MakeInode _ loc) fun made _ => ?_
      cases made with
      | none => exact hr.mkdirUndo hc
      | some ino => exact .pure trivial

theorem fat16Mkdir (now : DosStamp) {dir : Inode} (name : CStr) (hdir : dir.ent.cluster ≠ 0 → C dir.ent.cluster) :
    Within sees step (fun _ => True) (fat16Mkdir now dir name) := by
  refine hr.enterName now hdir name _ (fun fs fs' ent heq => ?_) fun fs ent hfs => ?_
  · rw [show fs.header = fs'.header from congrArg Prod.fst heq]
  · rw [hfs]
    exact hr.mkdirEntry now hdir ent

end FatHeader.Roomy

/-! ### The table, transfer by transfer -/

namespace FatHeader.Geometry

variable (hg : h.Geometry)
include hg

theorem root : ∀ j < h.rootDirSectors, h.rootDirLba + j < h.totalSectors := by
  intro j hj
  have hdata := hg.data
  rw [FatHeader.dataRegionLba] at hdata
  omega

/-- The sectors of a slot, in every copy of the table. -/
theorem slot_lt {c f : ℕ} (hin : h.InTable c) (hf : f < h.numFats.toNat) :
    h.fatStartLba + f * h.fatSize16.toNat + c * FAT16_FAT_ENTRY_SIZE / h.bps < h.totalSectors := by
  have hsize : c * FAT16_FAT_ENTRY_SIZE / h.bps < h.fatSize16.toNat := by
    rw [hg.sector, FAT16_FAT_ENTRY_SIZE, FAT16_SECTOR_SIZE]
    rw [InTable, FAT16_FAT_ENTRY_SIZE, fatBytes, hg.sector, FAT16_SECTOR_SIZE] at hin
    omega
  have hcopies : f * h.fatSize16.toNat + h.fatSize16.toNat ≤ h.numFats.toNat * h.fatSize16.toNat := by
    rw [← Nat.succ_mul]
    exact Nat.mul_le_mul_right _ hf
  have hdata := hg.data
  rw [dataRegionLba, rootDirLba] at hdata
  omega

/-- A lookup of a slot in the table transfers a sector of the volume. -/
theorem fatGet_inside {T : ℕ → Prop} {c : ℕ} (hin : h.InTable c) (hfats : 0 < h.numFats.toNat) :
    Inside h T (fun r => ∀ v, r = some v → v < 65536) (fat16FatGet c) := by
  have hsome : ∀ (w : UInt16) v, some w.toNat = some v → v < 65536 := by
    intro w v hv
    obtain rfl := Option.some.inj hv
    exact w.toNat_lt
  refine .get (fun fs fs' heq => ?_) fun fs hfs => ?_
  · rw [show fs.header = fs'.header from congrArg Prod.fst heq,
      show fs.fatCache = fs'.fatCache from congrArg (fun p => p.2.1) heq]
  have hdisk : Inside h T (fun r : Option ℕ => ∀ v, r = some v → v < 65536)
      (fatFromDisk (fs.header.fatStartLba + c * FAT16_FAT_ENTRY_SIZE / fs.header.bps)
        (c * FAT16_FAT_ENTRY_SIZE % fs.header.bps)) := by
    rw [hfs]
    have hslot := hg.slot_lt hin hfats
    rw [Nat.zero_mul, Nat.add_zero] at hslot
    refine .bind (.step (.read hslot)) fun r (_ : True) => ?_
    cases r with
    | none =>
      refine .pure fun v hv => ?_
      cases hv
    | some buf => exact .pure (hsome _)
  cases fs.fatCache with
  | none => exact hdisk
  | some cache => exact .ite (fun _ => .pure (hsome _)) fun _ => hdisk

theorem fatSetCopies_inside {T : ℕ → Prop} {c : ℕ} (hin : h.InTable c) (value n : ℕ) : ∀ f, f + n ≤ h.numFats.toNat →
    Inside h T (fun _ => True) (fatSetCopies (c * FAT16_FAT_ENTRY_SIZE) value n f) := by
  induction n with
  | zero =>
    intro f _
    exact .pure trivial
  | succ n ih =>
    intro f hf
    refine .get (fun fs fs' heq => ?_) fun fs hfs => ?_
    · rw [show fs.header = fs'.header from congrArg Prod.fst heq]
    rw [hfs]
    have hslot := hg.slot_lt hin (show f < h.numFats.toNat by omega)
    refine .bind (.step (.read hslot)) fun r (_ : True) => ?_
    cases r with
    | none => exact .pure trivial
    | some buf =>
      exact .bind (.step (.write hslot)) fun ok (_ : True) => .ite (fun _ => ih (f + 1) (by omega)) fun _ => .pure trivial

/-- An update of a slot in the table transfers sectors of the volume. -/
theorem fatSet_inside {T : ℕ → Prop} {c : ℕ} (hin : h.InTable c) (value : ℕ) :
    Inside h T (fun _ => True) (fat16FatSet c value) := by
  refine .get (fun fs fs' heq => ?_) fun fs hfs => ?_
  · rw [show fs.header = fs'.header from congrArg Prod.fst heq]
  rw [hfs]
  refine .bind (hg.fatSetCopies_inside hin value _ 0 (by omega)) fun ok _ => .ite (fun _ => ?_) fun _ => .pure trivial
  exact .bind (.step .setCache) fun _ (_ : True) => .pure trivial

end FatHeader.Geometry

/-! ### When every sixteen-bit number is a cluster -/

namespace FatHeader.Geometry

variable (hg : h.Geometry) (hlarge : 65534 ≤ h.totalClusters)
include hg hlarge

end FatHeader.Geometry

/-! ### A write behind the last sector -/

/-- The header and the sectors behind the volume are as before. -/
structure FatHeader.SameBehind (h : FatHeader) (fs fs' : Fat16) : Prop where
  header : fs'.header = fs.header
  disk : ∀ s, h.totalSectors ≤ s → fs'.disk s = fs.disk s

/-- No step below the end of the volume touches what is behind it. -/
theorem VolumeStep.sameBehind {Q : α → Prop} {m : Fs α} (hm : VolumeStep h (fun _ => False) α Q m) {fs fs' : Fat16}
    {a : α} (hrun : m fs = some (a, fs')) : h.SameBehind fs fs' ∧ Q a := by
  cases hm with
  | read hs =>
    refine ⟨?_, trivial⟩
    unfold blkDevRead at hrun
    split at hrun
    · obtain ⟨-, rfl⟩ := by simpa only [Option.some.injEq, Prod.mk.injEq] using hrun
      exact ⟨rfl, fun _ _ => rfl⟩
    · obtain ⟨-, rfl⟩ := by simpa only [Option.some.injEq, Prod.mk.injEq] using hrun
      exact ⟨rfl, fun _ _ => rfl⟩
  | @write sector buf hsector =>
    refine ⟨?_, trivial⟩
    have hne : ∀ s, h.totalSectors ≤ s → (fs.setSector sector buf).disk s = fs.disk s :=
      fun s hs => Fat16.setSector_disk_ne (by omega) buf
    unfold blkDevWrite at hrun
    split at hrun
    · obtain ⟨-, rfl⟩ := by simpa only [Option.some.injEq, Prod.mk.injEq] using hrun
      exact ⟨rfl, hne⟩
    · split at hrun
      · obtain ⟨-, rfl⟩ := by simpa only [Option.some.injEq, Prod.mk.injEq] using hrun
        exact ⟨rfl, fun _ _ => rfl⟩
      · obtain ⟨-, rfl⟩ := by simpa only [Option.some.injEq, Prod.mk.injEq] using hrun
        exact ⟨rfl, hne⟩
  | zalloc =>
    refine ⟨?_, trivial⟩
    unfold Fat.zalloc at hrun
    split at hrun
    · obtain ⟨-, rfl⟩ := by simpa only [Option.some.injEq, Prod.mk.injEq] using hrun
      exact ⟨rfl, fun _ _ => rfl⟩
    · obtain ⟨-, rfl⟩ := by simpa only [Option.some.injEq, Prod.mk.injEq] using hrun
      exact ⟨rfl, fun _ _ => rfl⟩
  | setCache =>
    rw [Prog.modify_apply, Option.some.injEq, Prod.mk.injEq] at hrun
    obtain ⟨-, rfl⟩ := hrun
    exact ⟨⟨Fat16.setCache_header _ _ _, fun _ _ => by rw [Fat16.setCache_disk]⟩, trivial⟩
  | fatGet hc => exact hc.elim
  | fatSet hc => exact hc.elim

theorem Inside.sameBehind {Q : α → Prop} {m : Fs α} (hm : Inside h (fun _ => False) Q m) {fs fs' : Fat16} {a : α}
    (hfs : fs.header = h) (hrun : m fs = some (a, fs')) : h.SameBehind fs fs' ∧ Q a :=
  hm.run (R := h.SameBehind) (fun _ => ⟨rfl, fun _ _ => rfl⟩)
    (fun _ _ _ h₁ h₂ => ⟨h₂.header.trans h₁.header, fun s hs => (h₂.disk s hs).trans (h₁.disk s hs)⟩)
    (fun _ _ h₁ hsees => h₁.header.trans hsees) (fun hstep _ _ _ _ hrun => hstep.sameBehind hrun) fs a fs' hfs hrun

/-- The sector loop skips whole sectors without a transfer. -/
theorem writeSectors_skip (ss : ℕ) {count : ℕ} (t : Transfer) (hdone : t.done < count) (n m r : ℕ) : ∀ lba,
    writeSectors ss count (m + n) lba { t with skip := m * ss + r } =
      writeSectors ss count n (lba + m) { t with skip := r } := by
  induction m with
  | zero =>
    intro lba
    rw [Nat.zero_add, Nat.zero_mul, Nat.zero_add, Nat.add_zero]
  | succ m ih =>
    intro lba
    have hskip : ss ≤ (m + 1) * ss + r := by
      rw [Nat.succ_mul]
      omega
    have hrest : (m + 1) * ss + r - ss = m * ss + r := by
      rw [Nat.succ_mul]
      omega
    rw [Nat.succ_add, writeSectors, if_pos hdone, if_pos hskip]
    simp only [hrest]
    rw [ih, Nat.succ_add_eq_add_succ]

/-- A volume of zeros, writable and without faults. -/
def strayVolume (h : FatHeader) : Fat16 where
  header := h
  disk := fun _ _ => 0
  fatCache := none
  readOnly := false
  ioFaults := []
  allocFaults := []

/-- A file of some size whose directory entry, in the sector `lba`, names the cluster `c`. -/
def strayInode (c lba size : ℕ) : Inode where
  ent := { Fat16Directory.zero with firstClusterLow := UInt16.ofNat c }
  loc := ⟨lba, 0⟩
  size := size
  mode := FAT16_MODE_FILE

theorem strayInode_cluster {c : ℕ} (hc : c < 65536) (lba size : ℕ) : (strayInode c lba size).ent.cluster = c :=
  Nat.mod_eq_of_lt hc

theorem strayInode_file (c lba size : ℕ) : isDir (strayInode c lba size).ent = false :=
  show isDir Fat16Directory.zero = false by decide

/-- The sector loop puts one byte into the last sector of a cluster. -/
theorem writeSectors_stray {fs : Fat16} (hf : fs.NoFaults) (lba m : ℕ) (b : UInt8) :
    ∃ t sector, writeSectors 512 1 (m + 1) lba ⟨m * 512, 0, false, fun _ => b⟩ fs =
      some (t, fs.setSector (lba + m) sector) ∧ t.failed = false ∧ t.done = 1 ∧ sector 0 = b := by
  have hskip := writeSectors_skip 512 ⟨0, 0, false, fun _ => b⟩ Nat.zero_lt_one 1 m 0 lba
  refine ⟨chunkNext 512 1 ⟨0, 0, false, fun _ => b⟩, chunkSector 512 1 ⟨0, 0, false, fun _ => b⟩ (fs.disk (lba + m)),
    ?_, rfl, rfl, ?_⟩
  · simp only [Nat.add_zero] at hskip
    rw [hskip, writeSectors_step hf Nat.zero_lt_one (show ¬ 512 ≤ 0 by omega), writeSectors, Prog.pure_apply]
  · exact splice_zero Nat.zero_lt_one

/-- **A byte written into the last sector of a cluster goes there**, whatever the number of the cluster is. -/
theorem fat16Write_stray {fs : Fat16} (hf : fs.NoFaults) (hro : fs.readOnly = false) (hg : fs.header.Geometry)
    (now : DosStamp) {ino : Inode} (hdir : isDir ino.ent = false) (hfirst : ino.ent.cluster ≠ 0) {t offset : ℕ}
    (ht : t ≠ 0) (hlast : offset % 2 ^ 32 % fs.header.clusterSize = (fs.header.spc - 1) * 512)
    (hseek : writeSeek fs.header.clusterSize (offset % 2 ^ 32) (2 ^ 32) (fs.header.clusterSize % 2 ^ 32) ino.ent.cluster fs =
      some (t, fs))
    (hend : fs.header.clusterToLba t + (fs.header.spc - 1) ≠ ino.loc.lba) (b : UInt8) :
    ∃ r fs', fat16Write now ino (fun _ => b) 1 offset fs = some (r, fs') ∧
      fs'.disk (fs.header.clusterToLba t + (fs.header.spc - 1)) 0 = b := by
  have hown : writeFirst ino fs = some (some ino, fs) := by
    rw [writeFirst, if_neg hfirst, Prog.pure_apply]
  obtain ⟨t', sector, hsectors, hok, hdone, hbyte⟩ :=
    writeSectors_stray hf (fs.header.clusterToLba t) (fs.header.spc - 1) b
  rw [Nat.sub_add_cancel hg.cluster] at hsectors
  have hbps : fs.header.bps = 512 := hg.sector
  have hdata : ∀ n, writeClusters 1 (n + 1) t ⟨(fs.header.spc - 1) * 512, 0, false, fun _ => b⟩ fs =
      some (t', fs.setSector (fs.header.clusterToLba t + (fs.header.spc - 1)) sector) := by
    intro n
    simp only [writeClusters, Nat.zero_lt_one, if_true, Prog.bind_apply, Prog.get_apply, Prog.obind_some, hbps, hsectors,
      hok, hdone, Bool.false_eq_true, if_false, Nat.lt_irrefl, Prog.pure_apply]
  have hput : writeClusters 1 (1 + CLUSTER_STEPS) t ⟨offset % 2 ^ 32 % fs.header.clusterSize, 0, false, fun _ => b⟩ fs =
      some (t', fs.setSector (fs.header.clusterToLba t + (fs.header.spc - 1)) sector) := by
    rw [hlast, Nat.add_comm]
    exact hdata _
  have hrun : fat16Write now ino (fun _ => b) 1 offset fs = _ :=
    fat16Write_out hdir hro Nat.one_ne_zero hown hseek ht hput
      (fat16DirWrite_ok (Fat16.setSector_noFaults hf _ _) _ _)
  refine ⟨_, _, hrun, ?_⟩
  rw [Inode.written_loc, Fat16.setEntry, Fat16.setSector_disk_ne hend, Fat16.setSector_disk_self]
  exact hbyte

/-- The clusters in bytes. -/
theorem FatHeader.Geometry.clusterSize_eq (hg : h.Geometry) : h.clusterSize = h.spc * 512 := by
  rw [FatHeader.clusterSize, hg.sector, FAT16_SECTOR_SIZE, Nat.mul_comm]

/-- A number behind the last cluster leads behind the volume, with its last sector at least. -/
theorem FatHeader.Geometry.behind (hg : h.Geometry) {t : ℕ} (ht : h.totalClusters + 1 < t) :
    h.totalSectors ≤ h.clusterToLba t + (h.spc - 1) := by
  have hspc := hg.cluster
  have hdata := hg.data
  have hlt := Nat.lt_div_mul_add hspc (a := h.totalSectors - h.dataRegionLba)
  have hfar : h.totalClusters * h.spc ≤ (t - FAT16_CLUSTER_MIN) * h.spc :=
    Nat.mul_le_mul_right _ (by rw [FAT16_CLUSTER_MIN]; omega)
  rw [FatHeader.clusterToLba, if_neg (by rw [FAT16_CLUSTER_MIN]; omega)]
  rw [FatHeader.totalClusters_eq hdata] at hfar
  omega

theorem smallHeader_acceptable : smallHeader.Acceptable where
  sector := rfl
  cluster := by decide
  metadata := by decide
  heap := by decide
  covers := by decide

end LizardOs.Fat
