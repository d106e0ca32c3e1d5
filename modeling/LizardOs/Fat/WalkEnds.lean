import LizardOs.Fat.ChainFree
import LizardOs.Fat.LookOnly

/-!
# When directory walks end

`fat16_walk_dir`, `fat16_dir_scan` and `fat16_dir_alloc_slot` follow the links of a directory and keep no record of where
they have been.  The runs here are bounded by a number of cluster steps, and a routine ends when some number is enough.
Whatever the callback and whatever transfers fail, a scan ends exactly when the links from the first cluster lead out of
the valid cluster numbers (`dirScan_ends_iff`), a walk also when they lead to a cluster with an end marker
(`walkDir_ends_iff`), and the allocation of a slot when the links behind the first cluster lead out
(`dirAllocSlot_ends_iff`).  The last condition is that of all three (`dirOps_end_iff`): a table with a cycle keeps them
going for ever.
-/

namespace LizardOs.Fat

open LizardOs.Lib

variable {fs fs' : Fat16} {α β κ : Type}

/-! ### Routines that look and return -/

/-- Started on the volume `fs`, the routine returns, changes at most the outcomes to come, and its answer satisfies
`Q`. -/
def Settles (fs : Fat16) (m : Fs α) (Q : α → Prop) : Prop :=
  ∀ fs₁, SameVolume fs fs₁ → ∃ r fs₂, m fs₁ = some (r, fs₂) ∧ SameVolume fs₁ fs₂ ∧ Q r

/-- Any answer will do. -/
def Anything {α : Type} (_ : α) : Prop := True

theorem SameVolume.linkAt (h : SameVolume fs fs') (c : ℕ) : fs'.linkAt c = fs.linkAt c := by
  rw [h.eq]
  rfl

/-- A slot of the cluster holds the end marker. -/
def Fat16.EndIn (fs : Fat16) (c : ℕ) : Prop :=
  ∃ s < fs.header.spc, ∃ i < fs.header.perSector,
    (fs.entryAt ⟨fs.header.clusterToLba c + s, i * FAT16_DIR_ENTRY_SIZE⟩).first = FAT16_DIR_ENTRY_END

namespace Settles

variable {Q : α → Prop} {Q' : β → Prop}

theorem pure {a : α} (h : Q a) : Settles fs (Pure.pure a) Q := fun fs₁ _ => ⟨a, fs₁, rfl, SameVolume.refl fs₁, h⟩

theorem bind {m : Fs α} {f : α → Fs β} (hm : Settles fs m Q) (hf : ∀ a, Q a → Settles fs (f a) Q') :
    Settles fs (m >>= f) Q' := by
  intro fs₁ hsame
  obtain ⟨a, fs₂, hfirst, hsame₂, ha⟩ := hm fs₁ hsame
  obtain ⟨b, fs₃, hrest, hsame₃, hb⟩ := hf a ha fs₂ (hsame.trans hsame₂)
  exact ⟨b, fs₃, by rw [Prog.bind_of_eq hfirst, hrest], hsame₂.trans hsame₃, hb⟩

theorem get {f : Fat16 → Fs α} (hf : ∀ fs₁, SameVolume fs fs₁ → Settles fs (f fs₁) Q) :
    Settles fs (Prog.get >>= f) Q := fun fs₁ hsame => hf fs₁ hsame fs₁ hsame

theorem ite {c : Prop} [Decidable c] {m m' : Fs α} (hm : c → Settles fs m Q) (hm' : ¬c → Settles fs m' Q) :
    Settles fs (if c then m else m') Q := by
  split
  · exact hm ‹_›
  · exact hm' ‹_›

/-- A sector is read as it stands. -/
theorem blkDevRead (sector : ℕ) : Settles fs (blkDevRead sector) fun r => ∀ buf, r = some buf → buf = fs.disk sector := by
  intro fs₁ hsame
  obtain ⟨r, rest, hread, hr⟩ := blkDevRead_cases fs₁ sector
  refine ⟨r, _, hread, (Looks.blkDevRead sector fs₁ r _ hsame hread).1, fun buf hbuf => ?_⟩
  rcases hr with rfl | rfl
  · cases hbuf
  · rw [← Option.some.inj hbuf, hsame.disk]

/-- An entry of the table is read as it stands. -/
theorem fat16FatGet (c : ℕ) : Settles fs (fat16FatGet c) fun r => ∀ v, r = some v → v = fs.linkAt c := by
  intro fs₁ hsame
  rw [← hsame.linkAt]
  obtain ⟨r, rest, hread, hr⟩ := blkDevRead_cases fs₁
    (fs₁.header.fatStartLba + c * FAT16_FAT_ENTRY_SIZE / fs₁.header.bps)
  have hsame₂ := (Looks.blkDevRead _ fs₁ r _ hsame hread).1
  -- an entry that is not in RAM
  have hdisk : ∀ link, link = (le16 (fs₁.disk (fs₁.header.fatStartLba + c * FAT16_FAT_ENTRY_SIZE / fs₁.header.bps))
      (c * FAT16_FAT_ENTRY_SIZE % fs₁.header.bps)).toNat →
      ∃ entry fs₂, fatFromDisk (fs₁.header.fatStartLba + c * FAT16_FAT_ENTRY_SIZE / fs₁.header.bps)
          (c * FAT16_FAT_ENTRY_SIZE % fs₁.header.bps) fs₁ = some (entry, fs₂) ∧
        SameVolume fs₁ fs₂ ∧ ∀ v, entry = some v → v = link := by
    rintro link rfl
    simp only [fatFromDisk, Prog.bind_apply, hread, Prog.obind_some]
    rcases hr with rfl | rfl
    · exact ⟨_, _, rfl, hsame₂, fun v hv => by cases hv⟩
    · exact ⟨_, _, rfl, hsame₂, fun v hv => (Option.some.inj hv).symm⟩
  simp only [Fat.fat16FatGet, fatFromDisk, Prog.bind_apply, Prog.get_apply, Prog.obind_some, Fat16.linkAt]
  cases fs₁.fatCache with
  | none => exact hdisk _ rfl
  | some cache =>
    simp only [Prog.ite_apply, Prog.pure_apply]
    split
    · exact ⟨_, fs₁, rfl, SameVolume.refl fs₁, fun v hv => (Option.some.inj hv).symm⟩
    · exact hdisk _ rfl

/-- A link is read as it stands in the table, or as the end of the chain. -/
theorem fat16NextCluster (c : ℕ) :
    Settles fs (fat16NextCluster c) fun next => next = fs.linkAt c ∨ next = FAT16_EOC := by
  refine (fat16FatGet c).bind fun r hr => ?_
  cases r with
  | none => exact pure (.inr rfl)
  | some next => exact pure (.inl (hr next rfl))

end Settles

/-! ### Callbacks -/

/-- A callback of `fat16_dir_scan` that returns and only looks. -/
def SlotCb.Quiet (slot : SlotCb κ) : Prop := ∀ fs c0 loc ctx, Settles fs (slot c0 loc ctx) Anything

/-- A callback of `fat16_walk_dir` that returns and only looks. -/
def DirCb.Quiet (cb : DirCb κ) : Prop := ∀ fs ent off loc ctx, Settles fs (cb ent off loc ctx) Anything

namespace Settles

section Scan

variable {slot : SlotCb κ} (hslot : slot.Quiet)

include hslot

theorem scanSector (buf : Buf) (lba n : ℕ) : ∀ i ctx, Settles fs (scanSector slot buf lba n i ctx) Anything := by
  induction n with
  | zero => exact fun i ctx => pure trivial
  | succ n ih =>
    intro i ctx
    exact (hslot fs _ _ ctx).bind fun p _ => ite (fun _ => pure trivial) fun _ => ih _ _

theorem scanSectors (per n : ℕ) : ∀ lba ctx, Settles fs (scanSectors slot per n lba ctx) Anything := by
  induction n with
  | zero => exact fun lba ctx => pure trivial
  | succ n ih =>
    intro lba ctx
    refine (blkDevRead lba).bind fun r _ => ?_
    cases r with
    | none => exact pure trivial
    | some buf =>
      exact (scanSector hslot buf lba per 0 ctx).bind fun p _ => ite (fun _ => pure trivial) fun _ => ih _ _

/-- **A scan along a chain that ends** returns. -/
theorem scanClusters {l : List ℕ} {t : ℕ} (ht : fat16ClusterValid t = false) : ∀ {c n : ℕ} (ctx : κ),
    Path fs.linkAt fat16ClusterValid c l t → l.length < n → Settles fs (scanClusters slot n c ctx) Anything := by
  induction l with
  | nil =>
    intro c n ctx hp hn
    obtain ⟨n, rfl⟩ : ∃ m, n = m + 1 := ⟨n - 1, by rw [List.length_nil] at hn; omega⟩
    rw [path_nil] at hp
    exact ite (fun hvalid => absurd hvalid (by rw [hp, ht]; exact Bool.false_ne_true)) fun _ => pure trivial
  | cons a l ih =>
    intro c n ctx hp hn
    obtain ⟨n, rfl⟩ : ∃ m, n = m + 1 := ⟨n - 1, by rw [List.length_cons] at hn; omega⟩
    obtain ⟨rfl, -, hp⟩ := hp
    rw [List.length_cons] at hn
    refine ite (fun _ => get fun fs₁ _ => ?_) fun _ => pure trivial
    refine (scanSectors hslot _ _ _ ctx).bind fun p _ => ite (fun _ => pure trivial) fun _ => ?_
    refine (fat16NextCluster c).bind fun next hnext => ?_
    rcases hnext with rfl | rfl
    · exact ih _ hp (by omega)
    · -- an unreadable link ends the chain
      obtain ⟨n, rfl⟩ : ∃ m, n = m + 1 := ⟨n - 1, by omega⟩
      exact ite (fun hvalid => absurd hvalid (by decide)) fun _ => pure trivial

end Scan

section Walk

/-- The walk goes no further. -/
def Stopped (w : Walk κ) : Prop := w.code ≠ 0 ∨ w.ended = true

variable {cb : DirCb κ} (hcb : cb.Quiet)

include hcb

theorem walkSector (buf : Buf) (lba n : ℕ) : ∀ i w, Settles fs (walkSector cb buf lba n i w) Anything := by
  induction n with
  | zero => exact fun i w => pure trivial
  | succ n ih =>
    intro i w
    refine ite (fun _ => pure trivial) fun _ => ?_
    exact (hcb fs _ _ _ _).bind fun p _ => ite (fun _ => pure trivial) fun _ => ih _ _

/-- A sector that holds an end marker is left at it, if the callback does not stop before. -/
theorem walkSector_end (buf : Buf) (lba n : ℕ) : ∀ i w,
    (∃ k < n, (Fat16Directory.ofBytes fun j => buf ((i + k) * FAT16_DIR_ENTRY_SIZE + j)).first = FAT16_DIR_ENTRY_END) →
    Settles fs (Fat.walkSector cb buf lba n i w) Stopped := by
  induction n with
  | zero =>
    rintro i w ⟨k, hk, -⟩
    exact absurd hk (Nat.not_lt_zero k)
  | succ n ih =>
    rintro i w ⟨k, hk, hend⟩
    refine ite (fun _ => pure (.inr rfl)) fun hnot => ?_
    refine (hcb fs _ _ _ _).bind fun p _ => ite (fun hcode => pure (.inl hcode)) fun _ => ih _ _ ?_
    cases k with
    | zero => exact absurd hend hnot
    | succ k => exact ⟨k, Nat.lt_of_succ_lt_succ hk, by rwa [Nat.add_right_comm]⟩

theorem walkSectors (per n : ℕ) : ∀ lba w, Settles fs (walkSectors cb per n lba w) Anything := by
  induction n with
  | zero => exact fun lba w => pure trivial
  | succ n ih =>
    intro lba w
    refine ite (fun _ => pure trivial) fun _ => (blkDevRead lba).bind fun r _ => ?_
    cases r with
    | none => exact pure trivial
    | some buf =>
      exact (walkSector hcb buf lba per 0 w).bind fun w' _ => ite (fun _ => pure trivial) fun _ => ih _ _

/-- So are consecutive sectors, one of which holds an end marker. -/
theorem walkSectors_end (per n : ℕ) : ∀ lba w,
    (∃ s < n, ∃ i < per, (fs.entryAt ⟨lba + s, i * FAT16_DIR_ENTRY_SIZE⟩).first = FAT16_DIR_ENTRY_END) →
    Settles fs (Fat.walkSectors cb per n lba w) Stopped := by
  induction n with
  | zero =>
    rintro lba w ⟨s, hs, -⟩
    exact absurd hs (Nat.not_lt_zero s)
  | succ n ih =>
    rintro lba w ⟨s, hs, i, hi, hend⟩
    refine ite (fun hended => pure (.inr hended)) fun _ => (blkDevRead lba).bind fun r hr => ?_
    cases r with
    | none => exact pure (.inl (show (-1 : ℤ) ≠ 0 by decide))
    | some buf =>
      obtain rfl := hr buf rfl
      cases s with
      | zero =>
        have hsector : Settles fs (Fat.walkSector cb (fs.disk lba) lba per 0 w) Stopped :=
          walkSector_end hcb (fs.disk lba) lba per 0 w ⟨i, hi, by rwa [Nat.zero_add]⟩
        refine hsector.bind fun w' hw' => ite (fun hcode => pure (.inl hcode)) fun hcode => ?_
        have hended := hw'.resolve_left hcode
        cases n with
        | zero => exact pure (.inr hended)
        | succ n => exact ite (fun _ => pure (.inr hended)) fun hnot => absurd hended hnot
      | succ s =>
        refine (walkSector hcb (fs.disk lba) lba per 0 w).bind fun w' _ => ite (fun hcode => pure (.inl hcode)) fun _ => ?_
        exact ih _ _ ⟨s, Nat.lt_of_succ_lt_succ hs, i, hi, by rwa [Nat.add_right_comm]⟩

/-- **A walk along links that lead out of the chain, or to an end marker,** returns. -/
theorem walkClusters {l : List ℕ} {t : ℕ} (ht : fat16ClusterValid t = false ∨ fs.EndIn t) : ∀ {c n : ℕ} (w : Walk κ),
    Path fs.linkAt fat16ClusterValid c l t → l.length + 1 < n → Settles fs (walkClusters cb n c w) Anything := by
  have hstop : ∀ {c n : ℕ} (w : Walk κ), fat16ClusterValid c = false ∨ w.ended = true → 0 < n →
      Settles fs (Fat.walkClusters cb n c w) Anything := by
    intro c n w hleft hn
    obtain ⟨n, rfl⟩ : ∃ m, n = m + 1 := ⟨n - 1, by omega⟩
    refine ite (fun hgo => ?_) fun _ => pure trivial
    rw [Bool.and_eq_true, Bool.not_eq_true'] at hgo
    rcases hleft with hinvalid | hended
    · rw [hinvalid] at hgo
      cases hgo.1
    · rw [hended] at hgo
      cases hgo.2
  induction l with
  | nil =>
    intro c n w hp hn
    rw [path_nil] at hp
    subst hp
    rcases ht with hinvalid | hend
    · exact hstop w (.inl hinvalid) (by omega)
    · obtain ⟨n, rfl⟩ : ∃ m, n = m + 1 := ⟨n - 1, by omega⟩
      refine ite (fun _ => get fun fs₁ hsame => ?_) fun _ => pure trivial
      rw [hsame.header]
      refine (walkSectors_end hcb _ _ _ w hend).bind fun w' hw' => ite (fun _ => pure trivial) fun hcode => ?_
      have hended := hw'.resolve_left hcode
      exact (fat16NextCluster c).bind fun next _ => hstop w' (.inr hended) (by simpa using hn)
  | cons a l ih =>
    intro c n w hp hn
    obtain ⟨n, rfl⟩ : ∃ m, n = m + 1 := ⟨n - 1, by rw [List.length_cons] at hn; omega⟩
    obtain ⟨rfl, -, hp⟩ := hp
    rw [List.length_cons] at hn
    refine ite (fun _ => get fun fs₁ _ => ?_) fun _ => pure trivial
    refine (walkSectors hcb _ _ _ w).bind fun w' _ => ite (fun _ => pure trivial) fun _ => ?_
    refine (fat16NextCluster c).bind fun next hnext => ?_
    rcases hnext with rfl | rfl
    · exact ih _ hp (by omega)
    · -- an unreadable link ends the chain
      exact hstop w' (.inl (by decide)) (by omega)

end Walk

/-- **The search for the last cluster** of a chain that ends returns. -/
theorem lastClusterFrom {l : List ℕ} {t : ℕ} (ht : fat16ClusterValid t = false) : ∀ {c n : ℕ} (last : ℕ),
    Path fs.linkAt fat16ClusterValid c l t → l.length < n → Settles fs (lastClusterFrom n last c) Anything := by
  have hstop : ∀ {c n : ℕ} (last : ℕ), fat16ClusterValid c = false →
      Settles fs (Fat.lastClusterFrom (n + 1) last c) Anything := by
    intro c n last hinvalid
    refine ite (fun hvalid => ?_) fun _ => pure trivial
    rw [hinvalid] at hvalid
    cases hvalid
  induction l with
  | nil =>
    intro c n last hp hn
    obtain ⟨n, rfl⟩ : ∃ m, n = m + 1 := ⟨n - 1, by rw [List.length_nil] at hn; omega⟩
    rw [path_nil] at hp
    exact hstop last (hp ▸ ht)
  | cons a l ih =>
    intro c n last hp hn
    obtain ⟨n, rfl⟩ : ∃ m, n = m + 1 := ⟨n - 1, by rw [List.length_cons] at hn; omega⟩
    obtain ⟨rfl, -, hp⟩ := hp
    rw [List.length_cons] at hn
    refine ite (fun _ => (fat16NextCluster c).bind fun next hnext => ?_) fun _ => pure trivial
    rcases hnext with rfl | rfl
    · exact ih _ hp (by omega)
    · obtain ⟨n, rfl⟩ : ∃ m, n = m + 1 := ⟨n - 1, by omega⟩
      exact hstop c (by decide)

end Settles

/-! ### Routines that return in any case -/

theorem blkDevRead_total (sector : ℕ) : Prog.Total (blkDevRead sector) := by
  intro fs
  obtain ⟨r, rest, hread, -⟩ := blkDevRead_cases fs sector
  exact ⟨r, _, hread⟩

theorem blkDevWrite_total (sector : ℕ) (buf : Buf) : Prog.Total (blkDevWrite sector buf) := by
  intro fs
  obtain ⟨rest, hwrite | hwrite⟩ := blkDevWrite_cases fs sector buf
  · exact ⟨_, _, hwrite⟩
  · exact ⟨_, _, hwrite⟩

theorem fat16FatGet_total (c : ℕ) : Prog.Total (fat16FatGet c) := by
  have hdisk : ∀ sector off, Prog.Total (fatFromDisk sector off) := by
    intro sector off
    refine (blkDevRead_total sector).bind fun r => ?_
    cases r with
    | none => exact .pure none
    | some buf => exact .pure _
  refine .get fun fs => ?_
  cases fs.fatCache with
  | none => exact hdisk _ _
  | some cache => exact .ite (.pure _) (hdisk _ _)

theorem fatSetCopies_total (byte value n : ℕ) : ∀ f, Prog.Total (fatSetCopies byte value n f) := by
  induction n with
  | zero => exact fun f => .pure true
  | succ n ih =>
    intro f
    refine .get fun fs => (blkDevRead_total _).bind fun r => ?_
    cases r with
    | none => exact .pure false
    | some buf => exact (blkDevWrite_total _ _).bind fun ok => .ite (ih _) (.pure false)

theorem fat16FatSet_total (c value : ℕ) : Prog.Total (fat16FatSet c value) :=
  .get fun _ => (fatSetCopies_total _ _ _ _).bind fun _ => .ite ((Prog.Total.modify _).bind fun _ => .pure true)
    (.pure false)

theorem clusterAllocFrom_total (n : ℕ) : ∀ c, Prog.Total (clusterAllocFrom n c) := by
  induction n with
  | zero => exact fun c => .pure none
  | succ n ih =>
    intro c
    refine (fat16FatGet_total c).bind fun r => ?_
    cases r with
    | none => exact .pure none
    | some v => exact .ite ((fat16FatSet_total _ _).bind fun ok => .ite (.pure _) (.pure none)) (ih _)

theorem zeroSectors_total (n : ℕ) : ∀ lba, Prog.Total (zeroSectors n lba) := by
  induction n with
  | zero => exact fun lba => .pure true
  | succ n ih => exact fun lba => (blkDevWrite_total _ _).bind fun ok => .ite (ih _) (.pure false)

/-! ### Bounded runs -/

/-- `fat16_dir_scan`, given up after a number of cluster steps. -/
def dirScanWithin (steps dirFirst : ℕ) (slot : SlotCb κ) (ctx : κ) : Fs (ℤ × κ) := do
  let fs ← Prog.get
  if dirFirst = 0 then
    scanSectors slot fs.header.perSector fs.header.rootDirSectors fs.header.rootDirLba ctx
  else scanClusters slot steps dirFirst ctx

/-- `fat16_walk_dir`, given up after a number of cluster steps. -/
def walkDirWithin (steps firstCluster : ℕ) (cb : DirCb κ) (ctx : κ) : Fs (ℤ × κ) := do
  let fs ← Prog.get
  let w : Walk κ := ⟨0, 0, false, ctx⟩
  let w ← if firstCluster = 0 then
      walkSectors cb fs.header.perSector fs.header.rootDirSectors fs.header.rootDirLba w
    else walkClusters cb steps firstCluster w
  pure (w.code, w.ctx)

/-- `fat16_dir_alloc_slot`, given up after a number of cluster steps in either loop. -/
def dirAllocSlotWithin (steps dirFirst : ℕ) : Fs (Option DirLoc) := do
  let p ← dirScanWithin steps dirFirst freeSlot none
  if p.1 = 1 then pure p.2
  else if dirFirst = 0 then pure none
  else do
    let c ← fat16NextCluster dirFirst
    let last ← lastClusterFrom steps dirFirst c
    appendCluster last

theorem fat16DirScan_within (dirFirst : ℕ) (slot : SlotCb κ) (ctx : κ) :
    fat16DirScan dirFirst slot ctx = dirScanWithin CLUSTER_STEPS dirFirst slot ctx := (rfl)

theorem fat16WalkDir_within (firstCluster : ℕ) (cb : DirCb κ) (ctx : κ) :
    fat16WalkDir firstCluster cb ctx = walkDirWithin CLUSTER_STEPS firstCluster cb ctx := (rfl)

theorem fat16DirAllocSlot_within (dirFirst : ℕ) :
    fat16DirAllocSlot dirFirst = dirAllocSlotWithin CLUSTER_STEPS dirFirst := (rfl)

/-- The routine returns when it is given enough steps. -/
def Terminates (m : ℕ → Fs α) (fs : Fat16) : Prop := ∃ steps r, m steps fs = some r

/-- The three routines return for every callback that returns and only looks. -/
structure DirOpsEnd (fs : Fat16) (dirFirst : ℕ) : Prop where
  walk : ∀ (κ : Type) (cb : DirCb κ) (ctx : κ), cb.Quiet → Terminates (walkDirWithin · dirFirst cb ctx) fs
  scan : ∀ (κ : Type) (slot : SlotCb κ) (ctx : κ), slot.Quiet → Terminates (dirScanWithin · dirFirst slot ctx) fs
  alloc : Terminates (dirAllocSlotWithin · dirFirst) fs

/-- The links from a cluster lead to a value that is no valid cluster number. -/
def Fat16.ChainEnds (fs : Fat16) (c : ℕ) : Prop :=
  ∃ l t, Path fs.linkAt fat16ClusterValid c l t ∧ fat16ClusterValid t = false

/-- The links from a cluster lead to such a value, or to a cluster with an end marker. -/
def Fat16.WalkEnds (fs : Fat16) (c : ℕ) : Prop :=
  ∃ l t, Path fs.linkAt fat16ClusterValid c l t ∧ (fat16ClusterValid t = false ∨ fs.EndIn t)

theorem Fat16.ChainEnds.of_link {c : ℕ} (h : fs.ChainEnds (fs.linkAt c)) : fs.ChainEnds c := by
  obtain ⟨l, t, hp, ht⟩ := h
  by_cases hvalid : fat16ClusterValid c = true
  · exact ⟨c :: l, t, ⟨rfl, hvalid, hp⟩, ht⟩
  · exact ⟨[], c, rfl, by simpa using hvalid⟩

theorem Fat16.WalkEnds.of_link {c : ℕ} (h : fs.WalkEnds (fs.linkAt c)) : fs.WalkEnds c := by
  obtain ⟨l, t, hp, ht⟩ := h
  by_cases hvalid : fat16ClusterValid c = true
  · exact ⟨c :: l, t, ⟨rfl, hvalid, hp⟩, ht⟩
  · exact ⟨[], c, rfl, .inl (by simpa using hvalid)⟩

theorem Fat16.ChainEnds.walkEnds {c : ℕ} (h : fs.ChainEnds c) : fs.WalkEnds c := by
  obtain ⟨l, t, hp, ht⟩ := h
  exact ⟨l, t, hp, .inl ht⟩

/-- Links that lead somewhere lead there in fewer steps than the bound of the routines. -/
theorem short_path {c t : ℕ} {l : List ℕ} (h : Path fs.linkAt fat16ClusterValid c l t) :
    ∃ m, Path fs.linkAt fat16ClusterValid c m t ∧ m.length + 1 < CLUSTER_STEPS := by
  obtain ⟨m, hm, hnd⟩ := h.exists_nodup
  refine ⟨m, hm, ?_⟩
  have hle : m.length ≤ FAT16_CLUSTER_MAX + 1 := nodup_length_le hnd fun c hc => by
    have hvalid := hm.ok_of_mem hc
    simp only [fat16ClusterValid, Bool.and_eq_true, decide_eq_true_eq] at hvalid
    omega
  have hmax : FAT16_CLUSTER_MAX + 2 < CLUSTER_STEPS := by decide
  omega

/-! ### Chains that end -/

theorem quiet_freeSlot : SlotCb.Quiet freeSlot :=
  fun _ _ _ _ => Settles.ite (fun _ => Settles.pure trivial) fun _ => Settles.pure trivial

theorem dirScanWithin_settles (fs : Fat16) {dirFirst : ℕ} {slot : SlotCb κ} (hslot : slot.Quiet)
    (h : dirFirst = 0 ∨ fs.ChainEnds dirFirst) (ctx : κ) :
    Settles fs (dirScanWithin CLUSTER_STEPS dirFirst slot ctx) Anything := by
  refine Settles.get fun fs₁ _ => ?_
  rcases h with hroot | ⟨l, t, hp, ht⟩
  · rw [if_pos hroot]
    exact Settles.scanSectors hslot _ _ _ ctx
  · obtain ⟨m, hm, hlen⟩ := short_path hp
    exact Settles.ite (fun _ => Settles.scanSectors hslot _ _ _ ctx) fun _ =>
      Settles.scanClusters hslot ht ctx hm (by omega)

theorem walkDirWithin_settles (fs : Fat16) {dirFirst : ℕ} {cb : DirCb κ} (hcb : cb.Quiet)
    (h : dirFirst = 0 ∨ fs.WalkEnds dirFirst) (ctx : κ) : Settles fs (walkDirWithin CLUSTER_STEPS dirFirst cb ctx) Anything := by
  refine Settles.get fun fs₁ _ => ?_
  have hroot : ∀ w, Settles fs (walkSectors cb fs₁.header.perSector fs₁.header.rootDirSectors fs₁.header.rootDirLba w)
      Anything := Settles.walkSectors hcb _ _ _
  rcases h with hzero | ⟨l, t, hp, ht⟩
  · rw [if_pos hzero]
    exact (hroot _).bind fun w _ => Settles.pure trivial
  · obtain ⟨m, hm, hlen⟩ := short_path hp
    exact Settles.ite (fun _ => (hroot _).bind fun w _ => Settles.pure trivial) fun _ =>
      (Settles.walkClusters hcb ht _ hm hlen).bind fun w _ => Settles.pure trivial

theorem Settles.returns {m : Fs α} {Q : α → Prop} (h : Settles fs m Q) : ∃ r, m fs = some r := by
  obtain ⟨r, fs₂, hrun, -⟩ := h fs (SameVolume.refl fs)
  exact ⟨(r, fs₂), hrun⟩

theorem appendCluster_total (last : ℕ) : Prog.Total (appendCluster last) := by
  have halloc : Prog.Total fat16ClusterAlloc := .get fun fs => clusterAllocFrom_total _ _
  refine halloc.bind fun r => ?_
  cases r with
  | none => exact .pure none
  | some nc =>
    refine (fat16FatSet_total _ _).bind fun ok => .ite (.get fun fs => ?_) (.pure none)
    exact (zeroSectors_total _ _).bind fun ok => .ite (.pure _) (.pure none)

theorem dirAllocSlotWithin_returns (fs : Fat16) {dirFirst : ℕ} (h : dirFirst = 0 ∨ fs.ChainEnds (fs.linkAt dirFirst)) :
    ∃ r, dirAllocSlotWithin CLUSTER_STEPS dirFirst fs = some r := by
  obtain ⟨p, fs₁, hrun, hsame, -⟩ := dirScanWithin_settles fs quiet_freeSlot (h.imp_right Fat16.ChainEnds.of_link) none fs
    (SameVolume.refl fs)
  rw [dirAllocSlotWithin, Prog.bind_of_eq hrun]
  by_cases hfound : p.1 = 1
  · rw [if_pos hfound]
    exact ⟨_, rfl⟩
  · rw [if_neg hfound]
    by_cases hroot : dirFirst = 0
    · rw [if_pos hroot]
      exact ⟨_, rfl⟩
    · rw [if_neg hroot]
      obtain ⟨l, t, hp, ht⟩ := h.resolve_left hroot
      obtain ⟨m, hm, hlen⟩ := short_path hp
      obtain ⟨next, fs₂, hnext, hsame₂, hlink⟩ := Settles.fat16NextCluster dirFirst fs₁ hsame
      have hlast : Settles fs (lastClusterFrom CLUSTER_STEPS dirFirst next) Anything := by
        rcases hlink with rfl | rfl
        · exact Settles.lastClusterFrom ht dirFirst hm (by omega)
        · exact Settles.lastClusterFrom (l := []) (t := FAT16_EOC) (by decide) dirFirst rfl (by decide)
      obtain ⟨last, fs₃, hrun₃, -⟩ := hlast fs₂ (hsame.trans hsame₂)
      rw [Prog.bind_of_eq hnext, Prog.bind_of_eq hrun₃]
      obtain ⟨r, fs₄, hend⟩ := appendCluster_total last fs₃
      exact ⟨_, hend⟩

/-! ### Chains that do not -/

/-- The callback that goes on. -/
def keepOn : SlotCb Unit := fun _ _ ctx => pure (0, ctx)

theorem quiet_keepOn : keepOn.Quiet := fun _ _ _ _ => Settles.pure trivial

theorem scanSector_keepOn (buf : Buf) (lba n : ℕ) : ∀ i, scanSector keepOn buf lba n i () fs = some ((0, ()), fs) := by
  induction n with
  | zero => exact fun i => rfl
  | succ n ih =>
    intro i
    rw [← ih (i + 1)]
    rfl

theorem scanSectors_keepOn (hio : fs.ioFaults = []) (per n : ℕ) : ∀ lba,
    scanSectors keepOn per n lba () fs = some ((0, ()), fs) := by
  induction n with
  | zero => exact fun lba => rfl
  | succ n ih =>
    intro lba
    simp only [scanSectors, Prog.bind_apply, blkDevRead_io hio, Prog.obind_some, scanSector_keepOn, ne_eq,
      not_true_eq_false, if_false, ih]

/-- A scan that nothing stops goes to the end of the chain. -/
theorem chainEnds_of_scan (hio : fs.ioFaults = []) {slot : SlotCb κ} {ctx : κ}
    (hgo : ∀ lba, scanSectors slot fs.header.perSector fs.header.spc lba ctx fs = some ((0, ctx), fs)) (n : ℕ) :
    ∀ {c : ℕ} {r : (ℤ × κ) × Fat16}, scanClusters slot n c ctx fs = some r → fs.ChainEnds c := by
  induction n with
  | zero =>
    intro c r hrun
    cases hrun
  | succ n ih =>
    intro c r hrun
    by_cases hvalid : fat16ClusterValid c = true
    · simp only [scanClusters, if_pos hvalid, Prog.bind_apply, Prog.get_apply, Prog.obind_some,
        hgo, ne_eq, not_true_eq_false, if_false, fat16NextCluster_io hio] at hrun
      exact Fat16.ChainEnds.of_link (ih hrun)
    · exact ⟨[], c, rfl, by simpa using hvalid⟩

/-- So does the search for the last cluster. -/
theorem chainEnds_of_lastCluster (hio : fs.ioFaults = []) (n : ℕ) : ∀ {last c : ℕ} {r : ℕ × Fat16},
    lastClusterFrom n last c fs = some r → fs.ChainEnds c := by
  induction n with
  | zero =>
    intro last c r hrun
    cases hrun
  | succ n ih =>
    intro last c r hrun
    by_cases hvalid : fat16ClusterValid c = true
    · simp only [lastClusterFrom, if_pos hvalid, Prog.bind_apply, fat16NextCluster_io hio, Prog.obind_some] at hrun
      exact Fat16.ChainEnds.of_link (ih hrun)
    · exact ⟨[], c, rfl, by simpa using hvalid⟩

/-- The callback that goes on, of a walk. -/
def walkOn : DirCb Unit := fun _ _ _ ctx => pure (0, ctx)

theorem quiet_walkOn : walkOn.Quiet := fun _ _ _ _ _ => Settles.pure trivial

/-- A walk that nothing stops ends at an end marker only. -/
theorem walkSector_walkOn (fs : Fat16) (buf : Buf) (lba n : ℕ) : ∀ i (w : Walk Unit), w.code = 0 → w.ended = false →
    ∃ w', walkSector walkOn buf lba n i w fs = some (w', fs) ∧ w'.code = 0 ∧ (w'.ended = true → ∃ k < n,
      (Fat16Directory.ofBytes fun j => buf ((i + k) * FAT16_DIR_ENTRY_SIZE + j)).first = FAT16_DIR_ENTRY_END) := by
  induction n with
  | zero =>
    intro i w hcode hended
    refine ⟨w, rfl, hcode, fun h => ?_⟩
    rw [hended] at h
    cases h
  | succ n ih =>
    intro i w hcode hended
    by_cases hend : (Fat16Directory.ofBytes fun j => buf (i * FAT16_DIR_ENTRY_SIZE + j)).first = FAT16_DIR_ENTRY_END
    · exact ⟨{ w with ended := true }, by rw [walkSector, if_pos hend, Prog.pure_apply], hcode,
        fun _ => ⟨0, n.succ_pos, hend⟩⟩
    · obtain ⟨w', hrun, hcode', hfound⟩ := ih (i + 1)
        { w with offset := (w.offset + FAT16_DIR_ENTRY_SIZE) % 2 ^ 32, ctx := w.ctx } hcode hended
      refine ⟨w', ?_, hcode', fun h => ?_⟩
      · rw [walkSector, if_neg hend, ← hrun]
        rfl
      · obtain ⟨k, hk, hmark⟩ := hfound h
        exact ⟨k + 1, Nat.succ_lt_succ hk, by rwa [Nat.add_right_comm] at hmark⟩

theorem walkSectors_walkOn (hio : fs.ioFaults = []) (per n : ℕ) : ∀ lba (w : Walk Unit), w.code = 0 → w.ended = false →
    ∃ w', walkSectors walkOn per n lba w fs = some (w', fs) ∧ w'.code = 0 ∧ (w'.ended = true → ∃ s < n, ∃ i < per,
      (fs.entryAt ⟨lba + s, i * FAT16_DIR_ENTRY_SIZE⟩).first = FAT16_DIR_ENTRY_END) := by
  induction n with
  | zero =>
    intro lba w hcode hended
    refine ⟨w, rfl, hcode, fun h => ?_⟩
    rw [hended] at h
    cases h
  | succ n ih =>
    intro lba w hcode hended
    obtain ⟨w₁, hsector, hcode₁, hfound₁⟩ := walkSector_walkOn fs (fs.disk lba) lba per 0 w hcode hended
    have hrun : walkSectors walkOn per (n + 1) lba w fs = walkSectors walkOn per n (lba + 1) w₁ fs := by
      simp only [walkSectors, hended, Bool.false_eq_true, if_false, Prog.bind_apply, blkDevRead_io hio, Prog.obind_some,
        hsector, hcode₁, ne_eq, not_true_eq_false]
    by_cases hended₁ : w₁.ended = true
    · obtain ⟨i, hi, hmark⟩ := hfound₁ hended₁
      rw [Nat.zero_add] at hmark
      refine ⟨w₁, ?_, hcode₁, fun _ => ⟨0, n.succ_pos, i, hi, hmark⟩⟩
      rw [hrun, walkSectors_ended n (lba + 1) hended₁]
    · obtain ⟨w₂, hrest, hcode₂, hfound₂⟩ := ih (lba + 1) w₁ hcode₁ (by simpa using hended₁)
      refine ⟨w₂, hrun.trans hrest, hcode₂, fun h => ?_⟩
      obtain ⟨s, hs, i, hi, hmark⟩ := hfound₂ h
      exact ⟨s + 1, Nat.succ_lt_succ hs, i, hi, by rwa [Nat.add_right_comm] at hmark⟩

theorem walkEnds_of_walk (hio : fs.ioFaults = []) (n : ℕ) : ∀ {c : ℕ} {w : Walk Unit} {r : Walk Unit × Fat16},
    w.code = 0 → w.ended = false → walkClusters walkOn n c w fs = some r → fs.WalkEnds c := by
  induction n with
  | zero =>
    intro c w r _ _ hrun
    cases hrun
  | succ n ih =>
    intro c w r hcode hended hrun
    by_cases hvalid : fat16ClusterValid c = true
    · obtain ⟨w₁, hsectors, hcode₁, hfound⟩ := walkSectors_walkOn hio fs.header.perSector fs.header.spc
        (fs.header.clusterToLba c) w hcode hended
      by_cases hended₁ : w₁.ended = true
      · exact ⟨[], c, rfl, .inr (hfound hended₁)⟩
      · simp only [walkClusters, hvalid, hended, Bool.not_false, Bool.and_true, if_true, Prog.bind_apply, Prog.get_apply,
          Prog.obind_some, hsectors, hcode₁, ne_eq, not_true_eq_false, if_false, fat16NextCluster_io hio] at hrun
        exact (ih hcode₁ (by simpa using hended₁) hrun).of_link
    · exact ⟨[], c, rfl, .inl (by simpa using hvalid)⟩

/-! ### When the operations end -/

/-- **When a scan ends.**  For every callback and whatever transfers fail, `fat16_dir_scan` returns exactly when it starts
in the root directory or the links lead to a value that is no valid cluster number. -/
theorem dirScan_ends_iff (fs : Fat16) (dirFirst : ℕ) :
    (∀ faults (κ : Type) (slot : SlotCb κ) (ctx : κ), slot.Quiet →
      Terminates (dirScanWithin · dirFirst slot ctx) (fs.withFaults faults)) ↔
    dirFirst = 0 ∨ fs.ChainEnds dirFirst := by
  constructor
  · intro h
    by_cases hroot : dirFirst = 0
    · exact .inl hroot
    · obtain ⟨n, r, hrun⟩ := h [] Unit keepOn () quiet_keepOn
      simp only [dirScanWithin, Prog.bind_apply, Prog.get_apply, Prog.obind_some, if_neg hroot] at hrun
      exact .inr (show (fs.withFaults []).ChainEnds dirFirst from
        chainEnds_of_scan rfl (scanSectors_keepOn rfl _ _) n hrun)
  · intro h faults κ slot ctx hslot
    have hsettles : Settles (fs.withFaults faults) (dirScanWithin CLUSTER_STEPS dirFirst slot ctx) Anything :=
      dirScanWithin_settles (fs.withFaults faults) hslot h ctx
    exact ⟨CLUSTER_STEPS, hsettles.returns⟩

/-- **When a walk ends.**  `fat16_walk_dir` returns also when the links lead to a cluster with an end marker, wherever
they go from there. -/
theorem walkDir_ends_iff (fs : Fat16) (dirFirst : ℕ) :
    (∀ faults (κ : Type) (cb : DirCb κ) (ctx : κ), cb.Quiet →
      Terminates (walkDirWithin · dirFirst cb ctx) (fs.withFaults faults)) ↔
    dirFirst = 0 ∨ fs.WalkEnds dirFirst := by
  constructor
  · intro h
    by_cases hroot : dirFirst = 0
    · exact .inl hroot
    · obtain ⟨n, r, hrun⟩ := h [] Unit walkOn () quiet_walkOn
      simp only [walkDirWithin, Prog.bind_apply, Prog.get_apply, Prog.obind_some, if_neg hroot] at hrun
      obtain ⟨found, hwalk, -⟩ := Option.bind_eq_some_iff.mp hrun
      exact .inr (show (fs.withFaults []).WalkEnds dirFirst from walkEnds_of_walk rfl n rfl rfl hwalk)
  · intro h faults κ cb ctx hcb
    have hsettles : Settles (fs.withFaults faults) (walkDirWithin CLUSTER_STEPS dirFirst cb ctx) Anything :=
      walkDirWithin_settles (fs.withFaults faults) hcb h ctx
    exact ⟨CLUSTER_STEPS, hsettles.returns⟩

/-- The search for a free slot in a cluster whose first sector cannot be read. -/
theorem freeSlot_first (hspc : 0 < fs.header.spc) (lba : ℕ) :
    scanSectors freeSlot fs.header.perSector fs.header.spc lba none (fs.withFaults [fun _ _ => true]) =
      some ((-1, none), fs.withFaults []) := by
  obtain ⟨n, hn⟩ : ∃ n, fs.header.spc = n + 1 := ⟨fs.header.spc - 1, by omega⟩
  rw [hn]
  rfl

/-- Behind a scan that found no slot, the allocation goes on to the last cluster. -/
theorem chainEnds_of_alloc (fs₁ : Fat16) (p : ℤ × Option DirLoc) {n dirFirst : ℕ} {r : Option DirLoc × Fat16}
    (hscan : dirScanWithin n dirFirst freeSlot none fs = some (p, fs₁)) (hio : fs₁.ioFaults = []) (hp : p.1 ≠ 1)
    (hroot : dirFirst ≠ 0) (hrun : dirAllocSlotWithin n dirFirst fs = some r) :
    fs₁.ChainEnds (fs₁.linkAt dirFirst) := by
  rw [dirAllocSlotWithin, Prog.bind_of_eq hscan, if_neg hp, if_neg hroot,
    Prog.bind_of_eq (fat16NextCluster_io hio dirFirst)] at hrun
  obtain ⟨found, hlast, -⟩ := Option.bind_eq_some_iff.mp hrun
  exact chainEnds_of_lastCluster hio n hlast

theorem dirScanWithin_of_ne {n dirFirst : ℕ} {slot : SlotCb κ} {ctx : κ} (hroot : dirFirst ≠ 0) :
    dirScanWithin n dirFirst slot ctx fs = scanClusters slot n dirFirst ctx fs := by
  simp only [dirScanWithin, Prog.bind_apply, Prog.get_apply, Prog.obind_some, if_neg hroot]

theorem dirAllocSlotWithin_zero {dirFirst : ℕ} (hroot : dirFirst ≠ 0) : dirAllocSlotWithin 0 dirFirst fs = none := by
  rw [dirAllocSlotWithin, Prog.bind_apply, dirScanWithin_of_ne hroot]
  rfl

theorem chainEnds_of_allocs {dirFirst : ℕ} (h : ∀ faults, Terminates (dirAllocSlotWithin · dirFirst) (fs.withFaults faults))
    (hroot : dirFirst ≠ 0) : fs.ChainEnds (fs.linkAt dirFirst) := by
  by_cases hvalid : fat16ClusterValid dirFirst = true
  · by_cases hspc : 0 < fs.header.spc
    · -- the first transfer fails
      obtain ⟨n, r, hrun⟩ := h [fun _ _ => true]
      cases n with
      | zero => cases (dirAllocSlotWithin_zero hroot).symm.trans hrun
      | succ n =>
        refine chainEnds_of_alloc (fs.withFaults []) (-1, none) ?_ rfl (by decide) hroot hrun
        rw [dirScanWithin_of_ne hroot]
        simp only [scanClusters, if_pos hvalid, Prog.bind_apply, Prog.get_apply, Prog.obind_some,
          Fat16.withFaults_header, freeSlot_first hspc, Prog.pure_apply, ne_eq, Int.reduceNeg, Int.reduceEq,
          not_false_eq_true, if_true]
    · -- no sector is read, and the scan goes to the end of the chain
      obtain ⟨n, r, hrun⟩ := h []
      obtain ⟨found, hscan, -⟩ := Option.bind_eq_some_iff.mp hrun
      rw [dirScanWithin_of_ne hroot] at hscan
      have hgo : ∀ lba, scanSectors freeSlot (fs.withFaults []).header.perSector (fs.withFaults []).header.spc lba none
          (fs.withFaults []) = some ((0, none), fs.withFaults []) := by
        intro lba
        rw [Fat16.withFaults_header, Nat.eq_zero_of_not_pos hspc]
        rfl
      obtain ⟨l, t, hp, ht⟩ := chainEnds_of_scan rfl hgo n hscan
      cases l with
      | nil =>
        rw [path_nil] at hp
        rw [← hp, hvalid] at ht
        cases ht
      | cons a l =>
        obtain ⟨rfl, -, hp⟩ := hp
        exact ⟨l, t, hp, ht⟩
  · -- no cluster is scanned
    obtain ⟨n, r, hrun⟩ := h []
    cases n with
    | zero => cases (dirAllocSlotWithin_zero hroot).symm.trans hrun
    | succ n =>
      refine chainEnds_of_alloc (fs.withFaults []) (0, none) ?_ rfl (by decide) hroot hrun
      rw [dirScanWithin_of_ne hroot]
      simp only [scanClusters, if_neg hvalid, Prog.pure_apply]

/-- **When a slot is found or made.**  A scan that a transfer stops is followed by the search for the last cluster, so
`fat16_dir_alloc_slot` returns, whatever transfers fail, exactly when it starts in the root directory or the links behind
the first cluster lead to a value that is no valid cluster number. -/
theorem dirAllocSlot_ends_iff (fs : Fat16) (dirFirst : ℕ) :
    (∀ faults, Terminates (dirAllocSlotWithin · dirFirst) (fs.withFaults faults)) ↔
    dirFirst = 0 ∨ fs.ChainEnds (fs.linkAt dirFirst) := by
  constructor
  · intro h
    by_cases hroot : dirFirst = 0
    · exact .inl hroot
    · exact .inr (chainEnds_of_allocs h hroot)
  · intro h faults
    exact ⟨CLUSTER_STEPS, dirAllocSlotWithin_returns (fs.withFaults faults) h⟩

/-- **When directory operations end.**  For every callback and whatever transfers fail, `fat16_walk_dir`, `fat16_dir_scan`
and `fat16_dir_alloc_slot` return exactly when they start in the root directory or the links behind the first cluster lead
to a value that is no valid cluster number. -/
theorem dirOps_end_iff (fs : Fat16) (dirFirst : ℕ) :
    (∀ faults, DirOpsEnd (fs.withFaults faults) dirFirst) ↔ dirFirst = 0 ∨ fs.ChainEnds (fs.linkAt dirFirst) := by
  constructor
  · intro h
    exact (dirAllocSlot_ends_iff fs dirFirst).mp fun faults => (h faults).alloc
  · intro h faults
    have hscan : dirFirst = 0 ∨ fs.ChainEnds dirFirst := h.imp_right Fat16.ChainEnds.of_link
    exact {
      walk := (walkDir_ends_iff fs dirFirst).mpr (hscan.imp_right Fat16.ChainEnds.walkEnds) faults
      scan := (dirScan_ends_iff fs dirFirst).mpr hscan faults
      alloc := (dirAllocSlot_ends_iff fs dirFirst).mpr h faults }

/-- **The bound of the functions of the model is enough** for every start from which any number of steps is. -/
theorem dirOps_return (fs : Fat16) (dirFirst : ℕ) :
    (dirFirst = 0 ∨ fs.ChainEnds dirFirst →
      ∀ (κ : Type) (slot : SlotCb κ) (ctx : κ), slot.Quiet → ∃ r, fat16DirScan dirFirst slot ctx fs = some r) ∧
    (dirFirst = 0 ∨ fs.WalkEnds dirFirst →
      ∀ (κ : Type) (cb : DirCb κ) (ctx : κ), cb.Quiet → ∃ r, fat16WalkDir dirFirst cb ctx fs = some r) ∧
    (dirFirst = 0 ∨ fs.ChainEnds (fs.linkAt dirFirst) → ∃ r, fat16DirAllocSlot dirFirst fs = some r) := by
  refine ⟨fun h κ slot ctx hslot => ?_, fun h κ cb ctx hcb => ?_, fun h => ?_⟩
  · rw [fat16DirScan_within]
    exact (dirScanWithin_settles fs hslot h ctx).returns
  · rw [fat16WalkDir_within]
    exact (walkDirWithin_settles fs hcb h ctx).returns
  · rw [fat16DirAllocSlot_within]
    exact dirAllocSlotWithin_returns fs h

theorem loopVolume_linkAt : loopVolume.linkAt 2 = 3 ∧ loopVolume.linkAt 3 = 2 := by
  have hkeeps := loopVolume_keeps
  have hlink : ∀ c v, c ≤ 3 → Function.update (Function.update (fun _ => 0) 2 3) 3 2 c = v → loopVolume.linkAt c = v := by
    intro c v hc hv
    have hin : loopVolume.header.InTable c := by
      have hsmall : ∀ c ≤ 3, twoFatVolume.header.InTable c := by decide
      rw [loopVolume_header]
      exact hsmall c hc
    have hnext : fat16NextCluster c loopVolume = some (v, loopVolume) := by
      rw [← hv]
      simp only [fat16NextCluster, Prog.bind_apply, hkeeps.get hin, Prog.obind_some, Prog.pure_apply]
    rw [fat16NextCluster_io hkeeps.io] at hnext
    exact congrArg Prod.fst (Option.some.inj hnext)
  exact ⟨hlink 2 3 (by decide) rfl, hlink 3 2 (by decide) rfl⟩

/-- In `loopVolume` the directory of the clusters 2 and 3 is never left. -/
theorem not_dirOps_end_loop : ¬ ∀ faults, DirOpsEnd (loopVolume.withFaults faults) 2 := by
  intro h
  obtain ⟨h2, h3⟩ := loopVolume_linkAt
  have hinside : ∀ (l : List ℕ) (c t : ℕ), c = 2 ∨ c = 3 → Path loopVolume.linkAt fat16ClusterValid c l t →
      t = 2 ∨ t = 3 := by
    intro l
    induction l with
    | nil =>
      intro c t hc hp
      rwa [path_nil.mp hp] at hc
    | cons a l ih =>
      intro c t hc hp
      obtain ⟨rfl, -, hp⟩ := hp
      rcases hc with rfl | rfl
      · exact ih _ t (.inr h2) hp
      · exact ih _ t (.inl h3) hp
  obtain ⟨l, t, hp, ht⟩ := chainEnds_of_allocs (fun faults => (h faults).alloc) (show 2 ≠ 0 by decide)
  rcases hinside l _ t (.inr h2) hp with rfl | rfl
  · cases ht
  · cases ht

end LizardOs.Fat
