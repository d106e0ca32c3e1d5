import LizardOs.Fat.OpSpecs
import LizardOs.Fat.Readdir

/-!
# Chain safety over whole runs

The calls of the file-system interface as steps on the volume and the inodes the kernel holds.  A run starts
from a mounted volume without inodes; `iget` stands for the lookup that builds the inode of an entry, and a
successful removal drops the inode of the removed slot.

`fat16_rmdir` looks its victim up by name and frees the chain of whatever entry it finds, the `.` entry of the
directory itself included.  Short of that, every call of every run returns and leaves a well-formed volume.
-/

namespace LizardOs.Fat

open LizardOs.Lib

/-- A call into the volume code, or the lookup of an inode. -/
inductive Call where
  | create (now : DosStamp) (dir : Inode) (name : CStr)
  | mkdir (now : DosStamp) (dir : Inode) (name : CStr)
  | unlink (dir : Inode) (name : CStr)
  | rmdir (dir : Inode) (name : CStr)
  | truncate (now : DosStamp) (loc : DirLoc)
  | write (now : DosStamp) (loc : DirLoc) (buf : Buf) (count offset : ℕ)
  | iget (loc : DirLoc)

namespace Sys

/-- A directory inode: its directory is one of the tree. -/
def Parent (s : Sys) (dir : Inode) : Prop := isDir dir.ent = true ∧ s.fs.DirAt dir.ent.cluster

/-- Record the inode a call returned. -/
def record (s : Sys) (r : Option Inode) (fs' : Fat16) : Sys :=
  match r with
  | none => ⟨fs', s.inodes⟩
  | some ino => ⟨fs', Function.update s.inodes ino.loc (some ino)⟩

/-- Drop the inode of the entry a removal found. -/
def drop (s : Sys) (dir : Inode) (name : CStr) (removed : Bool) (fs' : Fat16) : Sys :=
  match removed, fat16DirFind dir.ent.cluster name s.fs with
  | true, some (some (loc, _), _) => ⟨fs', Function.update s.inodes loc none⟩
  | _, _ => ⟨fs', s.inodes⟩

end Sys

/-- One call; `none` when it does not return. -/
def Call.run : Call → Sys → Option Sys
  | .create now dir name, s =>
      (fat16Create now dir name s.fs).map fun r => s.record r.1 r.2
  | .mkdir now dir name, s =>
      (fat16Mkdir now dir name s.fs).map fun r => s.record r.1 r.2
  | .unlink dir name, s =>
      (fat16Unlink dir name s.fs).map fun r => s.drop dir name r.1 r.2
  | .rmdir dir name, s =>
      (fat16Rmdir dir name s.fs).map fun r => s.drop dir name r.1 r.2
  | .truncate now loc, s =>
      match s.inodes loc with
      | none => some s
      | some ino => (fat16Truncate now ino 0 s.fs).map fun r =>
          ⟨r.2, Function.update s.inodes loc (some r.1.2)⟩
  | .write now loc buf count offset, s =>
      match s.inodes loc with
      | none => some s
      | some ino => (fat16Write now ino buf count offset s.fs).map fun r =>
          ⟨r.2, Function.update s.inodes loc (some r.1.2)⟩
  | .iget loc, s =>
      some ⟨s.fs, Function.update s.inodes loc (some (Inode.ofEntry (s.fs.entryAt loc) loc))⟩

/-- The callers' side of the contract: directory inodes as parents, printable names, inodes of live entries
only, and one inode for each entry. -/
def Call.Allowed (s : Sys) : Call → Prop
  | .create _ dir name => s.Parent dir ∧ name.all printable = true
  | .mkdir _ dir name => s.Parent dir ∧ name.all printable = true
  | .unlink dir _ => s.Parent dir
  | .rmdir dir _ => s.Parent dir
  | .truncate _ loc => s.inodes loc ≠ none
  | .write _ loc _ _ _ => s.inodes loc ≠ none
  | .iget loc => s.fs.Live loc ∧ s.inodes loc = none

/-- A removal does not hit a `.` or `..` entry. -/
def Call.Safe (s : Sys) : Call → Prop
  | .unlink dir name | .rmdir dir name =>
      ∀ l loc, s.fs.DirChain dir.ent.cluster l →
        s.fs.findIn name (s.fs.header.dirSlots dir.ent.cluster l) = some loc →
        fat16IsDot (s.fs.entryAt loc) = false
  | _ => True

/-- The states a run reaches whose calls all satisfy `ok`. -/
inductive Run (ok : Sys → Call → Prop) (s₀ : Sys) : Sys → Prop
  | start : Run ok s₀ s₀
  | step {s s' : Sys} {c : Call} : Run ok s₀ s → ok s c → c.run s = some s' → Run ok s₀ s'

/-- No directory holds an entry in use behind its end marker. -/
def Fat16.NoStale (fs : Fat16) : Prop :=
  ∀ d l, fs.DirAt d → fs.DirChain d l → fs.Tidy (fs.header.dirSlots d l)

/-! ### The start of a run -/

/-- A well-formed volume without stale slots starts in the invariant. -/
theorem Inv.start {fs : Fat16} (hm : fs.Mounted) (hw : fs.WellFormed) (hstale : fs.NoStale) :
    ∃ own, Inv ⟨fs, fun _ => none⟩ own := by
  classical
  have hchain : ∀ loc, fs.Live loc → ∃ l, fs.Owns (fs.entryAt loc).cluster l := by
    intro loc hlive
    rcases hw.chains loc hlive with hzero | ⟨l, hl⟩
    · exact ⟨[], .inl ⟨hzero, rfl⟩⟩
    · exact ⟨l, .inr hl⟩
  choose! own hown using hchain
  refine ⟨own, hm, hown, ?_, ?_, ?_⟩
  · intro x y hx hy hne
    rcases hown x hx with ⟨-, hnil⟩ | hheads
    · rw [hnil]
      exact List.disjoint_nil_left _
    · rcases hown y hy with ⟨-, hnil⟩ | hheads'
      · rw [hnil]
        exact List.disjoint_nil_right _
      · exact hw.apart x y _ _ hx hy hne hheads hheads'
  · intro x ino hino
    cases hino
  · intro d l hd hl
    exact hstale d l hd hl.dirChain

/-! ### One step -/

/-- A removal in terms of the chain of the parent directory. -/
theorem Call.Safe.of_owns {s : Sys} {dir : Inode} {name : CStr}
    (h : ∀ l loc, s.fs.DirChain dir.ent.cluster l →
      s.fs.findIn name (s.fs.header.dirSlots dir.ent.cluster l) = some loc →
      fat16IsDot (s.fs.entryAt loc) = false) :
    ∀ l loc, s.fs.Owns dir.ent.cluster l →
      s.fs.findIn name (s.fs.header.dirSlots dir.ent.cluster l) = some loc →
      fat16IsDot (s.fs.entryAt loc) = false :=
  fun l loc hl => h l loc hl.dirChain

theorem Sys.drop_found {s : Sys} {dir : Inode} {name : CStr} {l : List ℕ} {loc : DirLoc}
    (hm : s.fs.Mounted) (hl : s.fs.Owns dir.ent.cluster l)
    (hfind : s.fs.findIn name (s.fs.header.dirSlots dir.ent.cluster l) = some loc) (fs' : Fat16) :
    s.drop dir name true fs' = ⟨fs', Function.update s.inodes loc none⟩ := by
  have hrun := fat16DirFind_ok hm hl.dirChain name
  rw [hfind, Option.map_some] at hrun
  simp only [Sys.drop, hrun]

/-- **One call**: it returns, and the invariant holds again. -/
theorem Inv.step {s : Sys} {own : DirLoc → List ℕ} (h : Inv s own) {c : Call} (hc : c.Allowed s)
    (hsafe : c.Safe s) : ∃ s' own', c.run s = some s' ∧ Inv s' own' := by
  cases c with
  | create now dir name =>
    rcases h.create_spec now hc.1.2 (zero_not_mem_of_printable hc.2) with
      hrun | ⟨ent, loc, fs', own', -, -, hrun, ⟨-, hinv, -, -⟩ | ⟨hbad, -, -⟩⟩
    · refine ⟨s, own, ?_, h⟩
      simp only [Call.run, hrun, Option.map_some]
      rfl
    · refine ⟨_, own', ?_, hinv⟩
      simp only [Call.run, hrun, Option.map_some]
      rfl
    · rw [hc.2] at hbad
      cases hbad
  | mkdir now dir name =>
    rcases h.mkdir_spec now hc.1.2 (zero_not_mem_of_printable hc.2) with
      ⟨fs', hrun, hinv, -, -⟩ |
      ⟨ent, c, loc, fs', own', -, -, hrun, ⟨-, hinv, -, -, -, -⟩ | ⟨hbad, -, -⟩⟩
    · refine ⟨_, own, ?_, hinv⟩
      simp only [Call.run, hrun, Option.map_some]
      rfl
    · refine ⟨_, own', ?_, hinv⟩
      simp only [Call.run, hrun, Option.map_some]
      rfl
    · rw [hc.2] at hbad
      cases hbad
  | unlink dir name =>
    rcases h.unlink_spec hc.2 (Call.Safe.of_owns hsafe) with
      hrun | ⟨l, loc, fs', hl, hfind, -, -, hrun, hinv, -, -⟩
    · refine ⟨s, own, ?_, h⟩
      simp only [Call.run, hrun, Option.map_some]
      rfl
    · refine ⟨_, own, ?_, hinv⟩
      simp only [Call.run, hrun, Option.map_some, Sys.drop_found h.mounted hl hfind]
  | rmdir dir name =>
    rcases h.rmdir_spec hc.2 (Call.Safe.of_owns hsafe) with
      hrun | ⟨l, loc, fs', hl, hfind, -, -, -, hrun, hinv, -, -⟩
    · refine ⟨s, own, ?_, h⟩
      simp only [Call.run, hrun, Option.map_some]
      rfl
    · refine ⟨_, own, ?_, hinv⟩
      simp only [Call.run, hrun, Option.map_some, Sys.drop_found h.mounted hl hfind]
  | truncate now loc =>
    obtain ⟨ino, hino⟩ := Option.ne_none_iff_exists'.mp hc
    rcases h.truncate_spec now hino with ⟨r, hrun⟩ | ⟨fs', own', hrun, -, hinv, -, -⟩
    · refine ⟨s, own, ?_, h⟩
      simp only [Call.run, hino, hrun, Option.map_some]
      rw [← hino, Function.update_eq_self]
    · refine ⟨_, own', ?_, hinv⟩
      simp only [Call.run, hino, hrun, Option.map_some]
  | write now loc buf count offset =>
    obtain ⟨ino, hino⟩ := Option.ne_none_iff_exists'.mp hc
    rcases h.write_spec now hino buf count offset with
      ⟨r, hrun⟩ | ⟨c, fs', own', hrun, -, hinv, -, -⟩ | ⟨c, done, fs', own', hrun, -, hinv, -, -⟩
    · refine ⟨s, own, ?_, h⟩
      simp only [Call.run, hino, hrun, Option.map_some]
      rw [← hino, Function.update_eq_self]
    · refine ⟨_, own', ?_, hinv⟩
      simp only [Call.run, hino, hrun, Option.map_some]
    · refine ⟨_, own', ?_, hinv⟩
      simp only [Call.run, hino, hrun, Option.map_some]
  | iget loc =>
    obtain ⟨hlive, hnone⟩ := hc
    refine ⟨_, own, rfl, h.mounted, ?_, h.apart, ?_, h.tidy⟩
    · intro x hx
      have hhead : (⟨s.fs, Function.update s.inodes loc
          (some (Inode.ofEntry (s.fs.entryAt loc) loc))⟩ : Sys).head x = s.head x := by
        by_cases hxl : x = loc
        · subst hxl
          simp only [Sys.head, Function.update_self, hnone]
          rfl
        · simp only [Sys.head, Function.update_of_ne hxl]
      rw [hhead]
      exact h.owns x hx
    · intro x ino hino
      by_cases hxl : x = loc
      · subst hxl
        simp only [Function.update_self, Option.some.injEq] at hino
        subst hino
        exact ⟨hlive, rfl, rfl, rfl, rfl, .inl rfl⟩
      · simp only [Function.update_of_ne hxl] at hino
        exact h.cached x ino hino

/-- The invariant along a run. -/
theorem Inv.run {s₀ s : Sys} (h : ∃ own, Inv s₀ own)
    (hrun : Run (fun s c => c.Allowed s ∧ c.Safe s) s₀ s) : ∃ own, Inv s own := by
  induction hrun with
  | start => exact h
  | step _ hok hstep ih =>
    obtain ⟨own, hinv⟩ := ih
    obtain ⟨s', own', hstep', hinv'⟩ := hinv.step hok.1 hok.2
    rw [hstep] at hstep'
    obtain rfl := Option.some.inj hstep'
    exact ⟨own', hinv'⟩

/-- **Chain safety.**  From every well-formed volume without stale slots, and for every sequence of calls none of
which removes a `.` or `..` entry, every call returns and the volume is well-formed after it. -/
theorem wellFormed_of_run {fs : Fat16} {s : Sys} (hm : fs.Mounted) (hw : fs.WellFormed)
    (hstale : fs.NoStale)
    (hrun : Run (fun s c => c.Allowed s ∧ c.Safe s) ⟨fs, fun _ => none⟩ s) :
    s.fs.WellFormed ∧ ∀ c : Call, c.Allowed s → c.Safe s → ∃ s', c.run s = some s' := by
  obtain ⟨own, hinv⟩ := Inv.run (Inv.start hm hw hstale) hrun
  refine ⟨hinv.wellFormed, fun c hc hsafe => ?_⟩
  obtain ⟨s', -, hrun', -⟩ := hinv.step hc hsafe
  exact ⟨s', hrun'⟩

/-! ### The directory that removes itself -/

/-- A directory entry without extension. -/
def subdirEntry (name : CStr) (cluster : ℕ) : Fat16Directory :=
  { fileEntry name cluster 0 with attributes := FAT16_ATTR_DIRECTORY }

/-- A root directory with the empty subdirectory `D` on cluster 2. -/
def oneDir : Fat16 :=
  smallVolume (fatOf [2]) (sectorOf [subdirEntry [0x44] 2])
    fun lba => if lba = 3 then dotSector ⟨0, 0⟩ 0 2 else fun _ => 0

/-- The inode of `D`. -/
def oneDirInode : Inode := Inode.ofEntry (oneDir.entryAt ⟨2, 0⟩) ⟨2, 0⟩

theorem oneDir_owns : oneDir.Owns 2 [2] := by
  refine .inr ⟨by simp, 0xFFF8, by decide, ?_, by decide, by simp, by decide⟩
  exact ⟨rfl, by decide, by show oneDir.fatAt 2 = 0xFFF8; decide⟩

theorem oneDir_dirAt {d : ℕ} (h : oneDir.DirAt d) : d = 0 ∨ d = 2 := by
  induction h with
  | root => exact .inl rfl
  | @sub e x _ hx _ ih =>
    rcases ih with rfl | rfl
    · rw [holds_iff_children (.inl ⟨rfl, rfl⟩),
        show oneDir.children (oneDir.header.dirSlots 0 []) = [⟨2, 0⟩] by decide] at hx
      rw [List.mem_singleton.mp hx]
      exact .inr (by decide)
    · rw [holds_iff_children oneDir_owns.dirChain,
        show oneDir.children (oneDir.header.dirSlots 2 [2]) = [] by decide] at hx
      cases hx

theorem oneDir_live {x : DirLoc} (h : oneDir.Live x) : x = ⟨2, 0⟩ := by
  obtain ⟨d, hd, hx⟩ := h
  rcases oneDir_dirAt hd with rfl | rfl
  · rw [holds_iff_children (.inl ⟨rfl, rfl⟩),
      show oneDir.children (oneDir.header.dirSlots 0 []) = [⟨2, 0⟩] by decide] at hx
    exact List.mem_singleton.mp hx
  · rw [holds_iff_children oneDir_owns.dirChain,
      show oneDir.children (oneDir.header.dirSlots 2 [2]) = [] by decide] at hx
    cases hx

theorem oneDir_holds : oneDir.Holds 0 ⟨2, 0⟩ := by
  rw [holds_iff_children (.inl ⟨rfl, rfl⟩)]
  decide

theorem oneDir_wellFormed : oneDir.WellFormed where
  chains := by
    intro x hx
    rw [oneDir_live hx]
    rcases oneDir_owns with ⟨h, -⟩ | h
    · cases h
    · exact .inr ⟨[2], h⟩
  apart := fun x y l l' hx hy hne => absurd ((oneDir_live hx).trans (oneDir_live hy).symm) hne
  used := fun x l _ hl c hc => hl.ne_free hc

theorem oneDir_noStale : oneDir.NoStale := by
  intro d l hd hl
  rcases oneDir_dirAt hd with rfl | rfl
  · rw [hl.unique (.inl ⟨rfl, rfl⟩)]
    decide
  · rw [hl.unique oneDir_owns.dirChain]
    decide

theorem oneDir_parent : (⟨oneDir, fun _ => none⟩ : Sys).Parent oneDirInode :=
  ⟨by decide, .sub .root oneDir_holds (by decide)⟩

theorem wellFormed_of_run_oneDir : ∃ s', (Call.mkdir ⟨0, 0⟩ oneDirInode [0x45]).run
    ⟨oneDir, fun _ => none⟩ = some s' ∧ s'.fs.WellFormed := by
  have hok : (Call.mkdir ⟨0, 0⟩ oneDirInode [0x45]).Allowed ⟨oneDir, fun _ => none⟩ :=
    ⟨oneDir_parent, by decide⟩
  have hm : oneDir.Mounted := smallVolume_mounted _ _ _
  obtain ⟨s', hstep⟩ :=
    (wellFormed_of_run hm oneDir_wellFormed oneDir_noStale .start).2 _ hok trivial
  exact ⟨s', hstep, (wellFormed_of_run hm oneDir_wellFormed oneDir_noStale
    (.step .start ⟨hok, trivial⟩ hstep)).1⟩

/-- Removing `.` from an empty directory frees the directory's cluster and leaves its entry in the parent. -/
theorem not_wellFormed_rmdir_dot : ∃ s',
    Run (fun s c => c.Allowed s) ⟨oneDir, fun _ => none⟩ s' ∧ oneDir.Mounted ∧
      oneDir.WellFormed ∧ ¬s'.fs.WellFormed := by
  have hm : oneDir.Mounted := smallVolume_mounted _ _ _
  have hfind : oneDir.findIn [0x2E] (oneDir.header.dirSlots oneDirInode.ent.cluster [2]) =
      some ⟨3, 0⟩ := by decide
  have hown : oneDir.Owns oneDirInode.ent.cluster [2] := oneDir_owns
  have hrun := fat16Rmdir_ok (m := [2]) hm hown rfl hfind (by decide) oneDir_owns
  rw [if_pos (by decide)] at hrun
  set fs' := oneDir.release [2] ⟨3, 0⟩ (eraseEntry (oneDir.entryAt ⟨3, 0⟩)) with hfs'
  have hstep : (Call.rmdir oneDirInode [0x2E]).run ⟨oneDir, fun _ => none⟩ =
      some ⟨fs', Function.update (fun _ => none) ⟨3, 0⟩ none⟩ := by
    simp only [Call.run, hrun, Option.map_some]
    rw [Sys.drop_found hm oneDir_owns hfind]
  refine ⟨_, .step (c := .rmdir oneDirInode [0x2E]) .start oneDir_parent hstep, hm, oneDir_wellFormed, ?_⟩
  intro hw
  have hlive : fs'.Live ⟨2, 0⟩ := by
    refine ⟨0, .root, ?_⟩
    rw [holds_iff_children (.inl ⟨rfl, rfl⟩), hfs']
    decide
  have hcluster : (fs'.entryAt ⟨2, 0⟩).cluster = 2 := by rw [hfs']; decide
  rcases hw.chains ⟨2, 0⟩ hlive with hzero | ⟨l, hl⟩
  · rw [hcluster] at hzero
    cases hzero
  · rw [hcluster] at hl
    apply hl.ne_free hl.head_mem
    rw [hfs']
    decide

end LizardOs.Fat
