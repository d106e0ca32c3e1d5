import LizardOs.Fat.Namespace
import LizardOs.Fat.WriteFaults

/-!
# Routines that only look

A lookup reads sectors and allocates memory, and leaves the volume as it is.  `Looks` is a rule of pre- and postconditions
for such routines: whatever transfers and allocations fail, a run that returns changes at most the outcomes to come, and
its answer satisfies the postcondition.  For `fat16_lookup` the answer is an inode made from the entry in its slot.
-/

namespace LizardOs.Fat

open LizardOs.Lib

variable {fs fs' fs'' : Fat16} {α β κ : Type}

/-- The same volume, with fewer outcomes to come. -/
structure SameVolume (fs fs' : Fat16) : Prop where
  eq : fs' = fs.withOutcomes fs'.ioFaults fs'.allocFaults
  io : fs.ioFaults = [] → fs'.ioFaults = []
  alloc : fs.allocFaults = [] → fs'.allocFaults = []

namespace SameVolume

theorem refl (fs : Fat16) : SameVolume fs fs := ⟨rfl, id, id⟩

theorem trans (h : SameVolume fs fs') (h' : SameVolume fs' fs'') : SameVolume fs fs'' where
  eq := by
    rw [h'.eq, h.eq]
    rfl
  io := fun hio => h'.io (h.io hio)
  alloc := fun ha => h'.alloc (h.alloc ha)

theorem header (h : SameVolume fs fs') : fs'.header = fs.header := by
  rw [h.eq]
  rfl

theorem disk (h : SameVolume fs fs') : fs'.disk = fs.disk := by
  rw [h.eq]
  rfl

end SameVolume

/-- Started on the volume `fs`, the routine changes at most the outcomes to come, and its answer satisfies `Q`. -/
def Looks (fs : Fat16) (m : Fs α) (Q : α → Prop) : Prop :=
  ∀ fs₁ r fs₂, SameVolume fs fs₁ → m fs₁ = some (r, fs₂) → SameVolume fs₁ fs₂ ∧ Q r

namespace Looks

variable {Q : α → Prop} {Q' : β → Prop}

theorem pure {a : α} (h : Q a) : Looks fs (Pure.pure a) Q := by
  intro fs₁ r fs₂ _ hrun
  rw [Prog.pure_apply, Option.some.injEq, Prod.mk.injEq] at hrun
  obtain ⟨rfl, rfl⟩ := hrun
  exact ⟨SameVolume.refl _, h⟩

theorem diverge : Looks fs (Prog.diverge : Fs α) Q := by
  intro fs₁ r fs₂ _ hrun
  cases hrun

theorem bind {m : Fs α} {f : α → Fs β} (hm : Looks fs m Q) (hf : ∀ a, Q a → Looks fs (f a) Q') :
    Looks fs (m >>= f) Q' := by
  intro fs₁ r fs₂ hsame hrun
  obtain ⟨a, fs₃, hfirst, hrest⟩ := Prog.bind_eq_some.mp hrun
  obtain ⟨h₃, ha⟩ := hm fs₁ a fs₃ hsame hfirst
  obtain ⟨h₂, hr⟩ := hf a ha fs₃ r fs₂ (hsame.trans h₃) hrest
  exact ⟨h₃.trans h₂, hr⟩

/-- What a routine sees of the volume. -/
theorem get {f : Fat16 → Fs α} (hf : ∀ fs₁, SameVolume fs fs₁ → Looks fs (f fs₁) Q) : Looks fs (Prog.get >>= f) Q := by
  intro fs₁ r fs₂ hsame hrun
  exact hf fs₁ hsame fs₁ r fs₂ hsame hrun

theorem ite {c : Prop} [Decidable c] {m m' : Fs α} (hm : c → Looks fs m Q) (hm' : ¬c → Looks fs m' Q) :
    Looks fs (if c then m else m') Q := by
  split
  · exact hm ‹_›
  · exact hm' ‹_›

theorem blkDevRead (sector : ℕ) : Looks fs (blkDevRead sector) fun r => r = none ∨ r = some (fs.disk sector) := by
  intro fs₁ r fs₂ hsame hrun
  rw [← hsame.disk]
  unfold Fat.blkDevRead at hrun
  cases hf : fs₁.ioFaults with
  | nil =>
    rw [hf] at hrun
    obtain ⟨rfl, rfl⟩ := by simpa only [Option.some.injEq, Prod.mk.injEq] using hrun
    exact ⟨SameVolume.refl _, .inr rfl⟩
  | cons fault rest =>
    rw [hf] at hrun
    obtain ⟨rfl, rfl⟩ := by simpa only [Option.some.injEq, Prod.mk.injEq] using hrun
    refine ⟨⟨rfl, fun h => ?_, id⟩, ?_⟩
    · rw [hf] at h
      cases h
    · by_cases hfault : fault .read sector
      · exact .inl (if_pos hfault)
      · exact .inr (if_neg hfault)

theorem zalloc : Looks fs zalloc fun _ => True := by
  intro fs₁ r fs₂ hsame hrun
  unfold Fat.zalloc at hrun
  cases hf : fs₁.allocFaults with
  | nil =>
    rw [hf] at hrun
    obtain ⟨rfl, rfl⟩ := by simpa only [Option.some.injEq, Prod.mk.injEq] using hrun
    exact ⟨SameVolume.refl _, trivial⟩
  | cons fault rest =>
    rw [hf] at hrun
    obtain ⟨rfl, rfl⟩ := by simpa only [Option.some.injEq, Prod.mk.injEq] using hrun
    refine ⟨⟨rfl, id, fun h => ?_⟩, trivial⟩
    rw [hf] at h
    cases h

theorem fat16FatGet (cluster : ℕ) : Looks fs (fat16FatGet cluster) fun _ => True := by
  have hdisk : ∀ sector off, Looks fs (fatFromDisk sector off) fun _ => True := by
    intro sector off
    refine (blkDevRead _).bind fun r _ => ?_
    cases r with
    | none => exact pure trivial
    | some buf => exact pure trivial
  refine get fun fs₁ _ => ?_
  cases fs₁.fatCache with
  | none => exact hdisk _ _
  | some cache => exact ite (fun _ => pure trivial) fun _ => hdisk _ _

theorem fat16NextCluster (cluster : ℕ) : Looks fs (fat16NextCluster cluster) fun _ => True := by
  refine (fat16FatGet cluster).bind fun r _ => ?_
  cases r with
  | none => exact pure trivial
  | some next => exact pure trivial

/-! ### Walks -/

/-- A callback that only looks, and keeps `I` of its context when it is shown the entry in a slot. -/
def Callback (fs : Fat16) (cb : DirCb κ) (I : κ → Prop) : Prop :=
  ∀ off loc ctx, I ctx → Looks fs (cb (fs.entryAt loc) off loc ctx) fun p => I p.2

section Walk

variable {cb : DirCb κ} {I : κ → Prop} (hcb : Callback fs cb I)

include hcb

theorem walkSector (lba n : ℕ) : ∀ i w, I w.ctx →
    Looks fs (walkSector cb (fs.disk lba) lba n i w) fun w' => I w'.ctx := by
  induction n with
  | zero =>
    intro i w hw
    exact pure hw
  | succ n ih =>
    intro i w hw
    refine ite (fun _ => pure hw) fun _ => ?_
    exact (hcb _ ⟨lba, i * FAT16_DIR_ENTRY_SIZE⟩ _ hw).bind fun p hp => ite (fun _ => pure hp) fun _ => ih _ _ hp

theorem walkSectors (per n : ℕ) : ∀ lba w, I w.ctx → Looks fs (walkSectors cb per n lba w) fun w' => I w'.ctx := by
  induction n with
  | zero =>
    intro lba w hw
    exact pure hw
  | succ n ih =>
    intro lba w hw
    refine ite (fun _ => pure hw) fun _ => (blkDevRead lba).bind fun r hr => ?_
    cases r with
    | none => exact pure hw
    | some buf =>
      obtain rfl : buf = fs.disk lba := by simpa using hr
      exact (walkSector hcb lba per 0 w hw).bind fun w' hw' => ite (fun _ => pure hw') fun _ => ih _ _ hw'

theorem walkClusters (n : ℕ) : ∀ cluster w, I w.ctx → Looks fs (walkClusters cb n cluster w) fun w' => I w'.ctx := by
  induction n with
  | zero =>
    intro cluster w _
    exact diverge
  | succ n ih =>
    intro cluster w hw
    refine ite (fun _ => get fun fs₁ _ => ?_) fun _ => pure hw
    refine (walkSectors hcb _ _ _ w hw).bind fun w' hw' => ite (fun _ => pure hw') fun _ => ?_
    exact (fat16NextCluster cluster).bind fun next _ => ih _ _ hw'

/-- **A walk** keeps what its callback keeps. -/
theorem fat16WalkDir (firstCluster : ℕ) {ctx : κ} (hctx : I ctx) :
    Looks fs (fat16WalkDir firstCluster cb ctx) fun p => I p.2 := by
  refine get fun fs₁ _ => ?_
  refine ite (fun _ => ?_) fun _ => ?_
  · exact (walkSectors hcb _ _ _ _ hctx).bind fun w hw => pure hw
  · exact (walkClusters hcb _ _ _ hctx).bind fun w hw => pure hw

end Walk

theorem fat16MakeInode (ent : Fat16Directory) (loc : DirLoc) :
    Looks fs (fat16MakeInode ent loc) fun r => r = none ∨ r = some (Inode.ofEntry ent loc) := by
  refine zalloc.bind fun ok _ => ite (fun _ => zalloc.bind fun ok' _ => ?_) fun _ => pure (.inl rfl)
  exact ite (fun _ => pure (.inr rfl)) fun _ => pure (.inl rfl)

end Looks

end LizardOs.Fat
