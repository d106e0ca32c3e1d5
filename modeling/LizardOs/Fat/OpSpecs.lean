import LizardOs.Fat.NameForm
import LizardOs.Fat.SlotChange

/-!
# The operations and the invariant

One theorem for each of `fat16_create`, `fat16_mkdir`, `fat16_unlink`, `fat16_rmdir`, `fat16_truncate` and
`fat16_write`: on a volume in the ownership invariant the call returns; what it returns, how the tree
changes, that the invariant holds again and which clusters could have been leaked.
-/

namespace LizardOs.Fat

open LizardOs.Lib

/-- No entry the directory lists has the name. -/
def Fat16.Vacant (fs : Fat16) (d : ℕ) (name : CStr) : Prop :=
  ∀ x, fs.Lists d x → fat16NameCmp name (fs.entryAt x) ≠ 0

/-- Nothing the directory lists has the name. -/
theorem Fat16.vacant_of_findIn {fs : Fat16} {d : ℕ} {l : List ℕ} {name : CStr} (hl : fs.Owns d l)
    (hfind : fs.findIn name (fs.header.dirSlots d l) = none) : fs.Vacant d name := by
  intro x ⟨l', hl', hx⟩ hcmp
  rw [hl'.unique hl.dirChain] at hx
  have := List.find?_eq_none.mp hfind x hx
  simp [hcmp] at this

namespace Inv

variable {s : Sys} {own : DirLoc → List ℕ}

/-- `fat16_create` fails without a trace, or enters the fresh entry: a new file when the name is printable,
an entry the loops skip otherwise. -/
theorem create_spec (h : Inv s own) {dir : Inode} {name : CStr} (now : DosStamp)
    (hdir : s.fs.DirAt dir.ent.cluster) (hz : 0 ∉ name) :
    fat16Create now dir name s.fs = some (none, s.fs) ∨
    ∃ ent loc fs' own', fat16FillEntry now name FAT16_ATTR_ARCHIVE = some ent ∧
      s.fs.Vacant dir.ent.cluster name ∧
      fat16Create now dir name s.fs = some (some (Inode.ofEntry ent loc), fs') ∧
      ((name.all printable = true ∧
        Inv ⟨fs', Function.update s.inodes loc (some (Inode.ofEntry ent loc))⟩ own' ∧
        Added s.fs fs' dir.ent.cluster loc ent ∧
        ∀ b, (⟨fs', Function.update s.inodes loc
          (some (Inode.ofEntry ent loc))⟩ : Sys).Leaked own' b → s.Leaked own b) ∨
       (name.all printable = false ∧ Inv ⟨fs', s.inodes⟩ own' ∧ SameTree s.fs fs')) := by
  obtain ⟨l, hl⟩ := h.dir_owns hdir
  by_cases href : s.fs.Refused dir.ent.cluster l name (fat16FillEntry now name FAT16_ATTR_ARCHIVE)
  · exact .inl (fat16Create_refused h.mounted hl href)
  simp only [Fat16.Refused, not_or, not_not, Bool.not_eq_true] at href
  obtain ⟨hro, hent, hnew⟩ := href
  obtain ⟨ent, hent⟩ := Option.ne_none_iff_exists'.mp hent
  have hvacant := Fat16.vacant_of_findIn hl hnew
  rcases fat16Create_ok h.mounted hl hro hent hnew with ⟨loc, fs', hslot, hrun⟩ | ⟨-, hrun⟩
  · right
    obtain ⟨hattr, hcl⟩ := fat16FillEntry_attr hent
    cases hname : name.all printable with
    | true =>
      obtain ⟨hv, hdot⟩ := fat16FillEntry_child hent hname (.inl rfl)
      have hfile : isDir ent = false := by
        simp only [isDir, hattr]
        decide
      obtain ⟨own', hadd, htree, -, hleak⟩ := h.enter (m := []) hdir hl hslot
        (by simp [childEntry, hv, hdot]) (.inl ⟨hcl, rfl⟩) (List.disjoint_nil_left l)
        (fun x _ => List.disjoint_nil_right _) (fun hd => by rw [hfile] at hd; cases hd)
      exact ⟨ent, loc, _, own', hent, hvacant, hrun,
        .inl ⟨rfl, hadd, htree, fun b hb => (hleak b hb).1⟩⟩
    | false =>
      obtain ⟨own', hinv, htree⟩ := h.enterSkipped hdir hl hslot (fat16FillEntry_first hent hz)
        (fat16FillEntry_unprintable hent hname)
      exact ⟨ent, loc, _, own', hent, hvacant, hrun, .inr ⟨rfl, hinv, htree⟩⟩
  · exact .inl hrun

/-- The slots of a directory `fat16_mkdir` just laid out: tidy, and nothing but `.` and `..`. -/
theorem newDir_tidy {fs : Fat16} (now : DosStamp) (d : ℕ) {c : ℕ} (hs : fs.header.Sound)
    (hc0 : c ≠ 0) :
    (fs.newDir now d c).Tidy ((fs.newDir now d c).header.dirSlots c [c]) ∧
    (∀ x ∈ (fs.newDir now d c).header.dirSlots c [c], (fs.newDir now d c).child x = false) ∧
    ∃ x y, x ≠ y ∧ (fs.newDir now d c).entryAt x = dotEntry now c ∧
      (fs.newDir now d c).entryAt y = dotdotEntry now d c ∧
      ∀ z ∈ (fs.newDir now d c).header.dirSlots c [c], z ≠ x → z ≠ y →
        (fs.newDir now d c).entryAt z = Fat16Directory.zero := by
  have hslots : (fs.newDir now d c).header.dirSlots c [c] = fs.header.clusterSlots c := by
    rw [Fat16.newDir_header, FatHeader.dirSlots, if_neg hc0, List.flatMap_singleton]
  obtain ⟨x, y, rest, hxy, hx, hy, hz⟩ := Fat16.newDir_entries hs now d c
  rw [hslots, hxy]
  refine ⟨?_, ?_, x, y, ?_, hx, hy, ?_⟩
  · have htidy : (fs.newDir now d c).Tidy [x, y] := by
      have hfx : (fs.newDir now d c).firstByte x ≠ FAT16_DIR_ENTRY_END := by
        rw [← Fat16.entryAt_first, hx]
        simp [dotEntry, fat16EntryStamp, Fat16Directory.first, FAT16_DIR_ENTRY_END]
      simp [Fat16.Tidy, Fat16.AfterEnd, hfx]
    exact htidy.append_zero hz (by decide)
  · intro z hzm
    rcases List.mem_cons.mp hzm with rfl | hzm
    · simp [Fat16.child, hx, dotEntry_isDot]
    · rcases List.mem_cons.mp hzm with rfl | hzm
      · simp [Fat16.child, hy, dotdotEntry_isDot]
      · exact child_of_zero (hz z hzm)
  · rintro rfl
    have hname := congrArg Fat16Directory.name (hx.symm.trans hy)
    simp [dotEntry, dotdotEntry, fat16EntryStamp] at hname
  · intro z hzm hzx hzy
    simp only [List.mem_cons, hzx, hzy, false_or] at hzm
    exact hz z hzm

/-- `fat16_mkdir` fails without a trace, or enters the fresh entry on a fresh cluster: a new directory when the
name is printable, an entry the loops skip otherwise. -/
theorem mkdir_spec (h : Inv s own) {dir : Inode} {name : CStr} (now : DosStamp)
    (hdir : s.fs.DirAt dir.ent.cluster) (hz : 0 ∉ name) :
    (∃ fs', fat16Mkdir now dir name s.fs = some (none, fs') ∧ Inv ⟨fs', s.inodes⟩ own ∧
      SameTree s.fs fs' ∧ ∀ b, (⟨fs', s.inodes⟩ : Sys).Leaked own b → s.Leaked own b) ∨
    ∃ ent c loc fs' own', fat16FillEntry now name FAT16_ATTR_DIRECTORY = some ent ∧
      s.fs.Vacant dir.ent.cluster name ∧
      fat16Mkdir now dir name s.fs = some (some (Inode.ofEntry (dirEntry ent c) loc), fs') ∧
      ((name.all printable = true ∧
        Inv ⟨fs', Function.update s.inodes loc (some (Inode.ofEntry (dirEntry ent c) loc))⟩ own' ∧
        Added s.fs fs' dir.ent.cluster loc (dirEntry ent c) ∧ (dirEntry ent c).cluster = c ∧
        (∃ x y, (∀ z, fs'.Lists c z → z = x ∨ z = y) ∧
          (fs'.Lists c x → fs'.entryAt x = dotEntry now c) ∧
          (fs'.Lists c y → fs'.entryAt y = dotdotEntry now dir.ent.cluster c)) ∧
        ∀ b, (⟨fs', Function.update s.inodes loc
          (some (Inode.ofEntry (dirEntry ent c) loc))⟩ : Sys).Leaked own' b → s.Leaked own b) ∨
       (name.all printable = false ∧ Inv ⟨fs', s.inodes⟩ own' ∧ SameTree s.fs fs')) := by
  obtain ⟨l, hl⟩ := h.dir_owns hdir
  have hs := h.mounted.sound
  have hsame : SameTree s.fs s.fs := .refl h.tidy
  by_cases href : s.fs.Refused dir.ent.cluster l name (fat16FillEntry now name FAT16_ATTR_DIRECTORY)
  · exact .inl ⟨s.fs, fat16Mkdir_refused h.mounted hl href, h, hsame, fun b hb => hb⟩
  simp only [Fat16.Refused, not_or, not_not, Bool.not_eq_true] at href
  obtain ⟨hro, hent, hnew⟩ := href
  obtain ⟨ent, hent⟩ := Option.ne_none_iff_exists'.mp hent
  have hvacant := Fat16.vacant_of_findIn hl hnew
  rcases fat16Mkdir_ok h.mounted hl hro hent hnew with ⟨-, hrun⟩ | ⟨c, hmin, hc, hfree, hcase⟩
  · exact .inl ⟨s.fs, hrun, h, hsame, fun b hb => hb⟩
  -- the fresh cluster, laid out as an empty directory that belongs to nobody yet
  have hext := Fat16.Extends.of_newDir (d := dir.ent.cluster) now h.mounted hmin hc hfree
  obtain ⟨hinv1, htree1, hdisj1⟩ := h.fresh hext
  have hm1 := hext.mounted
  have hl1 : (s.fs.newDir now dir.ent.cluster c).Owns dir.ent.cluster l :=
    Fat16.newDir_owns now h.mounted hmin hc hfree hl
  have hdir1 := (htree1.dirAt _).mpr hdir
  have hcl : [c].Disjoint l := by
    intro b hb hbl
    rw [List.mem_singleton.mp hb] at hbl
    exact hl.ne_free hbl hfree
  have hc0 : c ≠ 0 := hext.heads.head_ne_zero
  have hdisj1' : ∀ x, (s.fs.newDir now dir.ent.cluster c).Live x → (own x).Disjoint [c] :=
    fun x hx => hdisj1 x ((htree1.live x).mp hx)
  rcases hcase with ⟨loc, fs', hslot, hrun⟩ | ⟨-, hrun⟩
  · right
    obtain ⟨hattr, -⟩ := fat16FillEntry_attr hent
    have hcluster : (dirEntry ent c).cluster = c := by
      simp only [Fat16Directory.cluster, dirEntry, UInt16.toNat_ofNat']
      have := hext.heads.head_lt
      omega
    cases hname : name.all printable with
    | true =>
      obtain ⟨hv, hdot⟩ := fat16FillEntry_child hent hname (.inr rfl)
      have hisdir : isDir (dirEntry ent c) = true := by
        simp only [isDir, dirEntry, hattr]
        decide
      have hchild : childEntry (dirEntry ent c) = true := by
        have hv' : fat16EntryValid (dirEntry ent c) = true := hv
        have hdot' : fat16IsDot (dirEntry ent c) = false := hdot
        simp [childEntry, hv', hdot']
      obtain ⟨htidy, hnone, x, y, -, hxe, hye, hze⟩ :=
        newDir_tidy now dir.ent.cluster hs hc0
      obtain ⟨own', hadd, htree, hlisted, hleak⟩ := hinv1.enter (m := [c]) hdir1 hl1 hslot hchild
        (by rw [hcluster]; exact .inr hext.heads) hcl hdisj1'
        (fun _ => by rw [hcluster]; exact ⟨hc0, htidy, hnone⟩)
      rw [hcluster] at hlisted
      refine ⟨ent, c, loc, _, own', hent, hvacant, hrun, .inl ⟨rfl, hadd, .of_sameTree htree1 htree,
        hcluster, ⟨x, y, ?_, ?_, ?_⟩, fun b hb => ?_⟩⟩
      · intro z hzl
        obtain ⟨hzm, hzent⟩ := hlisted z hzl hisdir
        by_contra hne
        rw [not_or] at hne
        obtain ⟨n, -, hzn⟩ := hzl
        have hzv := (mem_of_mem_live hzn).2
        rw [hzent, hze z hzm hne.1 hne.2] at hzv
        exact absurd hzv (by decide)
      · exact fun hx => (hlisted x hx hisdir).2.trans hxe
      · exact fun hy => (hlisted y hy hisdir).2.trans hye
      · obtain ⟨hb, hbc⟩ := hleak b hb
        rcases leaked_fresh hext htree1 hb with hb | hb
        · exact hb
        · exact absurd hb hbc
    | false =>
      have hfirst : (dirEntry ent c).first ≠ FAT16_DIR_ENTRY_END := by
        show ent.first ≠ FAT16_DIR_ENTRY_END
        exact fat16FillEntry_first hent hz
      have hinvalid : fat16EntryValid (dirEntry ent c) = false := by
        show fat16EntryValid ent = false
        exact fat16FillEntry_unprintable hent hname
      obtain ⟨own', hinv, htree⟩ := hinv1.enterSkipped hdir1 hl1 hslot hfirst hinvalid
      exact ⟨ent, c, loc, _, own', hent, hvacant, hrun, .inr ⟨rfl, hinv, htree1.trans htree⟩⟩
  · left
    have hinc : ∀ b ∈ [c], b ≤ (s.fs.newDir now dir.ent.cluster c).header.lastCluster := by
      intro b hb
      rw [List.mem_singleton.mp hb, hext.header]
      exact hc
    obtain ⟨hinv2, htree2⟩ := hinv1.freeUnowned hinc hdisj1'
    refine ⟨_, hrun, hinv2, htree1.trans htree2, fun b hb => ?_⟩
    obtain ⟨h1, h2, h3, h4, h5⟩ := hb
    rw [Fat16.freeAll_header] at h2
    simp only [Fat16.fatAt_freeAll hm1.sound hinc h2] at h3 h4
    have hbc : b ∉ [c] := by
      intro hbc
      rw [if_pos hbc] at h3
      exact h3 rfl
    rw [if_neg hbc] at h3 h4
    rcases leaked_fresh hext htree1
      ⟨h1, h2, h3, h4, fun y hy => h5 y ((htree2.live y).mpr hy)⟩ with hb | hb
    · exact hb
    · exact absurd hb hbc

theorem findIn_live {d : ℕ} {l : List ℕ} {name : CStr} {loc : DirLoc} (hd : s.fs.DirAt d)
    (hl : s.fs.Owns d l) (hfind : s.fs.findIn name (s.fs.header.dirSlots d l) = some loc)
    (hdot : fat16IsDot (s.fs.entryAt loc) = false) : s.fs.Live loc :=
  ⟨d, hd, ⟨l, hl.dirChain, List.mem_of_find?_eq_some hfind⟩, hdot⟩

/-- The chain a removal frees: the slot's own, or none while the disk calls the file empty. -/
theorem freed_chain (h : Inv s own) {loc : DirLoc} (hlive : s.fs.Live loc) :
    ∃ m, s.fs.Owns (s.fs.entryAt loc).cluster m ∧
      (m = own loc ∨ (m = [] ∧ isDir (s.fs.entryAt loc) = false ∧
        (s.fs.entryAt loc).cluster = 0)) := by
  rcases h.head_cases loc with heq | ⟨hfile, hzero⟩
  · exact ⟨own loc, heq ▸ h.owns loc hlive, .inl rfl⟩
  · exact ⟨[], .inl ⟨hzero, rfl⟩, .inr ⟨rfl, hfile, hzero⟩⟩

theorem erased_first (e : Fat16Directory) : (eraseEntry e).first ≠ FAT16_DIR_ENTRY_END := by
  rw [eraseEntry_first]
  decide

/-- `fat16_unlink` fails without a trace, or removes the file it found. -/
theorem unlink_spec (h : Inv s own) {dir : Inode} {name : CStr} (hdir : s.fs.DirAt dir.ent.cluster)
    (hsafe : ∀ l loc, s.fs.Owns dir.ent.cluster l →
      s.fs.findIn name (s.fs.header.dirSlots dir.ent.cluster l) = some loc →
      fat16IsDot (s.fs.entryAt loc) = false) :
    fat16Unlink dir name s.fs = some (false, s.fs) ∨
    ∃ l loc fs', s.fs.Owns dir.ent.cluster l ∧
      s.fs.findIn name (s.fs.header.dirSlots dir.ent.cluster l) = some loc ∧ s.fs.Live loc ∧
      isDir (s.fs.entryAt loc) = false ∧ fat16Unlink dir name s.fs = some (true, fs') ∧
      Inv ⟨fs', Function.update s.inodes loc none⟩ own ∧ Removed s.fs fs' loc ∧
      ∀ b, (⟨fs', Function.update s.inodes loc none⟩ : Sys).Leaked own b →
        s.Leaked own b ∨ ((s.fs.entryAt loc).cluster = 0 ∧ b ∈ own loc) := by
  obtain ⟨l, hl⟩ := h.dir_owns hdir
  have hs := h.mounted.sound
  by_cases href : s.fs.readOnly = true ∨ ∀ loc,
      s.fs.findIn name (s.fs.header.dirSlots dir.ent.cluster l) = some loc →
        isDir (s.fs.entryAt loc) = true
  · exact .inl (fat16Unlink_refused h.mounted hl href)
  right
  simp only [not_or, Bool.not_eq_true, not_forall, exists_prop] at href
  obtain ⟨hro, loc, hfind, hfile⟩ := href
  have hlive : s.fs.Live loc := findIn_live hdir hl hfind (hsafe l loc hl hfind)
  obtain ⟨m, hm, hcase⟩ := h.freed_chain hlive
  have hrun := fat16Unlink_ok h.mounted hl hro hfind hfile hm
  obtain ⟨hinv, hrem⟩ := h.remove (m := m) hlive
    (hcase.imp_right fun hc => ⟨hc.1, hc.2.1⟩)
    (fun hd => by rw [hfile] at hd; cases hd) (erased_first _) (eraseEntry_invalid _)
  obtain ⟨-, -, -, -, -, -, hp⟩ := h.live_slot hlive
  refine ⟨l, loc, _, hl, hfind, hlive, hfile, hrun, hinv, hrem, fun b hb => ?_⟩
  obtain ⟨hbm, hb'⟩ := leaked_remove hs hp (fun x hx => hm.inside hx) hrem hb
  rcases hb' with hb' | hb'
  · exact .inl hb'
  · rcases hcase with rfl | ⟨-, -, hzero⟩
    · exact absurd hb' hbm
    · exact .inr ⟨hzero, hb'⟩

/-- `fat16_rmdir` fails without a trace, or removes the empty directory it found. -/
theorem rmdir_spec (h : Inv s own) {dir : Inode} {name : CStr} (hdir : s.fs.DirAt dir.ent.cluster)
    (hsafe : ∀ l loc, s.fs.Owns dir.ent.cluster l →
      s.fs.findIn name (s.fs.header.dirSlots dir.ent.cluster l) = some loc →
      fat16IsDot (s.fs.entryAt loc) = false) :
    fat16Rmdir dir name s.fs = some (false, s.fs) ∨
    ∃ l loc fs', s.fs.Owns dir.ent.cluster l ∧
      s.fs.findIn name (s.fs.header.dirSlots dir.ent.cluster l) = some loc ∧ s.fs.Live loc ∧
      isDir (s.fs.entryAt loc) = true ∧ (∀ x, ¬s.fs.Holds (s.fs.entryAt loc).cluster x) ∧
      fat16Rmdir dir name s.fs = some (true, fs') ∧
      Inv ⟨fs', Function.update s.inodes loc none⟩ own ∧ Removed s.fs fs' loc ∧
      ∀ b, (⟨fs', Function.update s.inodes loc none⟩ : Sys).Leaked own b → s.Leaked own b := by
  obtain ⟨l, hl⟩ := h.dir_owns hdir
  have hs := h.mounted.sound
  by_cases href : s.fs.readOnly = true ∨ ∀ loc,
      s.fs.findIn name (s.fs.header.dirSlots dir.ent.cluster l) = some loc →
        isDir (s.fs.entryAt loc) = false
  · exact .inl (fat16Rmdir_refused h.mounted hl href)
  simp only [not_or, Bool.not_eq_true, not_forall, exists_prop, Bool.not_eq_false] at href
  obtain ⟨hro, loc, hfind, hisdir⟩ := href
  have hlive : s.fs.Live loc := findIn_live hdir hl hfind (hsafe l loc hl hfind)
  have hm := h.owns loc hlive
  rw [h.head_dir hisdir] at hm
  have hrun := fat16Rmdir_ok h.mounted hl hro hfind hisdir hm
  split at hrun
  · right
    rename_i hall
    have hempty : ∀ x ∈ s.fs.header.dirSlots (s.fs.entryAt loc).cluster (own loc),
        s.fs.child x = false := by
      intro x hx
      have := List.all_eq_true.mp hall x hx
      simpa using this
    obtain ⟨hinv, hrem⟩ := h.remove (m := own loc) hlive
      (.inl rfl) (fun _ => hempty) (erased_first _) (eraseEntry_invalid _)
    obtain ⟨-, -, -, -, -, -, hp⟩ := h.live_slot hlive
    have hsub : s.fs.DirAt (s.fs.entryAt loc).cluster := by
      obtain ⟨e, he, hx⟩ := hlive
      exact .sub he hx hisdir
    have hnone : ∀ x, ¬s.fs.Holds (s.fs.entryAt loc).cluster x := by
      intro x hx
      obtain ⟨hmem, hc⟩ := (h.holds hsub hm).mp hx
      rw [hempty x hmem] at hc
      cases hc
    refine ⟨l, loc, _, hl, hfind, hlive, hisdir, hnone, hrun, hinv, hrem, fun b hb => ?_⟩
    obtain ⟨hbm, hb⟩ := leaked_remove hs hp (fun x hx => hm.inside hx) hrem hb
    rcases hb with hb | hb
    · exact hb
    · exact absurd hb hbm
  · exact .inl hrun

/-- `fat16_truncate` to length 0 changes nothing, or empties the file. -/
theorem truncate_spec (h : Inv s own) {loc : DirLoc} {ino : Inode} (now : DosStamp)
    (hino : s.inodes loc = some ino) :
    (∃ r, fat16Truncate now ino 0 s.fs = some ((r, ino), s.fs)) ∨
    ∃ fs' own', fat16Truncate now ino 0 s.fs = some ((0, ino.emptied now), fs') ∧
      isDir ino.ent = false ∧
      Inv ⟨fs', Function.update s.inodes loc (some (ino.emptied now))⟩ own' ∧
      Rewritten s.fs fs' loc (ino.emptied now).ent ∧
      ∀ b, (⟨fs', Function.update s.inodes loc (some (ino.emptied now))⟩ : Sys).Leaked own' b →
        s.Leaked own b := by
  obtain ⟨hlive, hcache⟩ := h.cached loc ino hino
  have hown := h.owns loc hlive
  rw [show s.head loc = ino.ent.cluster by simp only [Sys.head, hino]] at hown
  have hrun := fat16Truncate_ok now h.mounted hown
  by_cases hdir : isDir ino.ent = true ∨ s.fs.readOnly = true
  · rw [if_pos hdir] at hrun
    exact .inl ⟨-1, hrun⟩
  rw [if_neg hdir] at hrun
  by_cases hempty : ino.size = 0 ∧ ino.ent.cluster = 0
  · rw [if_pos hempty] at hrun
    exact .inl ⟨0, hrun⟩
  rw [if_neg hempty, hcache.loc] at hrun
  right
  have hfile : isDir ino.ent = false := by
    simp only [not_or, Bool.not_eq_true] at hdir
    exact hdir.1
  obtain ⟨hinv, hrew⟩ := h.rewrite (ino.emptied now) [] hino hfile rfl rfl rfl rfl
    (.inr ⟨rfl, rfl, rfl⟩)
  obtain ⟨-, -, -, -, -, -, hp⟩ := h.live_slot hlive
  exact ⟨_, _, hrun, hfile, hinv, hrew, fun b hb =>
    leaked_rewrite h.mounted.sound hp (fun x hx => hown.inside hx) hlive hrew (.inr ⟨rfl, rfl⟩) hb⟩

/-- The inode after a write keeps its slot, its name and its kind. -/
theorem written_keeps (now : DosStamp) (ino : Inode) (offset done : ℕ) :
    (ino.written now offset done).loc = ino.loc ∧
    (ino.written now offset done).ent.name = ino.ent.name ∧
    (ino.written now offset done).ent.extension = ino.ent.extension ∧
    (ino.written now offset done).ent.attributes = ino.ent.attributes ∧
    (ino.written now offset done).ent.cluster = ino.ent.cluster := by
  unfold Inode.written
  split <;> split <;> exact ⟨rfl, rfl, rfl, rfl, rfl⟩

/-- `fat16_write`, for every offset and length: nothing changes; or the chain is prolonged, the inode learns its
first cluster and the call fails; or the chain is prolonged and the slot rewritten. -/
theorem write_spec (h : Inv s own) {loc : DirLoc} {ino : Inode} (now : DosStamp)
    (hino : s.inodes loc = some ino) (buf : Buf) (count offset : ℕ) :
    (∃ r, fat16Write now ino buf count offset s.fs = some ((r, ino), s.fs)) ∨
    (∃ c fs' own',
      fat16Write now ino buf count offset s.fs = some ((-1, ino.withCluster c), fs') ∧
      isDir ino.ent = false ∧
      Inv ⟨fs', Function.update s.inodes loc (some (ino.withCluster c))⟩ own' ∧ SameTree s.fs fs' ∧
      ∀ b, (⟨fs', Function.update s.inodes loc (some (ino.withCluster c))⟩ : Sys).Leaked own' b →
        s.Leaked own b) ∨
    ∃ c done fs' own', fat16Write now ino buf count offset s.fs =
        some ((writeResult done, (ino.withCluster c).written now offset done), fs') ∧
      isDir ino.ent = false ∧
      Inv ⟨fs', Function.update s.inodes loc
        (some ((ino.withCluster c).written now offset done))⟩ own' ∧
      Rewritten s.fs fs' loc ((ino.withCluster c).written now offset done).ent ∧
      ∀ b, (⟨fs', Function.update s.inodes loc
        (some ((ino.withCluster c).written now offset done))⟩ : Sys).Leaked own' b →
        s.Leaked own b := by
  obtain ⟨hlive, hcache⟩ := h.cached loc ino hino
  have hown := h.owns loc hlive
  rw [show s.head loc = ino.ent.cluster by simp only [Sys.head, hino]] at hown
  by_cases hor : (isDir ino.ent || s.fs.readOnly) = true
  · left
    refine ⟨-1, ?_⟩
    unfold fat16Write
    generalize 2 ^ 32 = steps
    simp only [Prog.bind_apply, Prog.get_apply, Prog.obind_some, hor, if_true, Prog.pure_apply]
  by_cases hcount : count = 0
  · left
    refine ⟨0, ?_⟩
    unfold fat16Write
    generalize 2 ^ 32 = steps
    simp only [Prog.bind_apply, Prog.get_apply, Prog.obind_some, hor, Bool.false_eq_true, if_false,
      hcount, if_true, Prog.pure_apply]
  simp only [Bool.not_eq_true, Bool.or_eq_false_iff] at hor
  obtain ⟨hfile, hro⟩ := hor
  rcases fat16Write_frame h.mounted hfile hro hown now buf hcount offset with
    hrun | ⟨c, fs', l', hext, hrun⟩ | ⟨c, fs', l', done, hext, hrun⟩
  · exact .inl ⟨-1, hrun⟩
  · obtain ⟨hinv, htree⟩ := h.extendFile hino hfile hext
    exact .inr (.inl ⟨c, fs', _, hrun, hfile, hinv, htree,
      fun b hb => leaked_extend hlive hext htree hb⟩)
  · obtain ⟨hinv, htree⟩ := h.extendFile hino hfile hext
    obtain ⟨w1, w2, w3, w4, w5⟩ := written_keeps now (ino.withCluster c) offset done
    have hino' : (⟨fs', Function.update s.inodes loc (some (ino.withCluster c))⟩ : Sys).inodes loc =
        some (ino.withCluster c) := Function.update_self _ _ _
    obtain ⟨hinv', hrew⟩ := hinv.rewrite ((ino.withCluster c).written now offset done) _
      hino' hfile w1 w2 w3 w4 (.inl ⟨rfl, rfl, w5⟩)
    rw [hcache.loc] at hrun
    have hlive' := (htree.live loc).mpr hlive
    obtain ⟨-, -, -, -, -, -, hp⟩ := hinv.live_slot hlive'
    rw [Function.update_idem] at hinv'
    refine .inr (.inr ⟨c, done, _, _, hrun, hfile, hinv', .of_sameTree htree hrew, fun b hb => ?_⟩)
    exact leaked_extend hlive hext htree
      (leaked_rewrite (s := ⟨fs', Function.update s.inodes loc (some (ino.withCluster c))⟩)
        hinv.mounted.sound hp (by simp) hlive' hrew (.inl ⟨rfl, rfl⟩) hb)

end Inv

end LizardOs.Fat
