import LizardOs.Fat.ChainSafety

/-!
# 8.3 names stay unique

`fat16_create` and `fat16_mkdir` look for the string they were given among the rendered names, and then store
the parsed form of it.  The two agree on a string that is rendered back as it was, up to letter case; on
`"FOO "` or `"FOO."`, which are stored as `FOO`, they do not, and a second `FOO` is entered.

As long as every created name is rendered back, or has an unprintable byte that keeps its entry out of
sight, no directory of the tree ever lists two entries with the same name bytes.
-/

namespace LizardOs.Fat

open LizardOs.Lib

/-- Two entries have the same eleven name bytes. -/
def SameName (e e' : Fat16Directory) : Prop := e.name = e'.name ∧ e.extension = e'.extension

instance (e e' : Fat16Directory) : Decidable (SameName e e') :=
  inferInstanceAs (Decidable (_ ∧ _))

/-- No directory of the tree lists two entries with the same name bytes. -/
def Fat16.NamesUnique (fs : Fat16) : Prop :=
  ∀ d x y, fs.DirAt d → fs.Lists d x → fs.Lists d y →
    SameName (fs.entryAt x) (fs.entryAt y) → x = y

/-- The calls that change names: directory inodes as parents, and any C string. -/
def Call.Naming (s : Sys) : Call → Prop
  | .create _ dir name | .mkdir _ dir name => s.Parent dir ∧ 0 ∉ name
  | .unlink dir _ | .rmdir dir _ => s.Parent dir
  | _ => False

/-- The name a call enters is rendered back, or its entry is one that the loops skip. -/
def Call.ReadsBack : Call → Prop
  | .create _ _ name | .mkdir _ _ name => cleanName name = true ∨ name.all printable = false
  | _ => True

/-! ### The three changes of the tree -/

section

variable {fs fs' : Fat16} {d : ℕ} {loc : DirLoc} {ent : Fat16Directory}

theorem SameName.cmp {e e' : Fat16Directory} (h : SameName e e') (name : CStr) :
    fat16NameCmp name e = fat16NameCmp name e' := by
  rw [fat16NameCmp, fat16NameCmp, h.1, h.2]

theorem Fat16.NamesUnique.of_sameTree (h : fs.NamesUnique) (hsame : SameTree fs fs') :
    fs'.NamesUnique := by
  intro e x y he hx hy hname
  have he' := (hsame.dirAt e).mp he
  have hx' := (hsame.lists e he' x).mp hx
  have hy' := (hsame.lists e he' y).mp hy
  rw [hsame.listed e x he' hx', hsame.listed e y he' hy'] at hname
  exact h e x y he' hx' hy' hname

theorem Fat16.NamesUnique.of_removed (h : fs.NamesUnique) (hrem : Removed fs fs' loc) :
    fs'.NamesUnique := by
  intro e x y he hx hy hname
  have he' := ((hrem.dirAt e).mp he).1
  obtain ⟨hxl, hx'⟩ := (hrem.lists e he x).mp hx
  obtain ⟨hyl, hy'⟩ := (hrem.lists e he y).mp hy
  rw [hrem.listed e x he' hx' hxl, hrem.listed e y he' hy' hyl] at hname
  exact h e x y he' hx' hy' hname

/-- A new entry keeps the names unique when its own name was vacant, and so are those of the directory it
brings. -/
theorem Fat16.NamesUnique.of_added (h : fs.NamesUnique) (hadd : Added fs fs' d loc ent)
    (hnew : ∀ x, fs.Lists d x → ¬SameName (fs.entryAt x) ent)
    (hdir : isDir ent = true → ∀ x y, fs'.Lists ent.cluster x → fs'.Lists ent.cluster y →
      SameName (fs'.entryAt x) (fs'.entryAt y) → x = y) : fs'.NamesUnique := by
  intro e x y he hx hy hname
  rcases (hadd.dirAt e).mp he with he' | ⟨hisdir, rfl⟩
  · rcases (hadd.lists e he' x).mp hx with hx' | ⟨rfl, rfl⟩
    · rw [hadd.listed e x he' hx'] at hname
      rcases (hadd.lists e he' y).mp hy with hy' | ⟨rfl, rfl⟩
      · rw [hadd.listed e y he' hy'] at hname
        exact h e x y he' hx' hy' hname
      · rw [hadd.self] at hname
        exact absurd hname (hnew x hx')
    · rw [hadd.self] at hname
      rcases (hadd.lists e he' y).mp hy with hy' | ⟨-, rfl⟩
      · rw [hadd.listed e y he' hy'] at hname
        exact absurd ⟨hname.1.symm, hname.2.symm⟩ (hnew y hy')
      · rfl
  · exact hdir hisdir x y hx hy hname

end

/-! ### Runs -/

/-- Inodes that agree with their entries can be forgotten. -/
theorem Inv.forget {s : Sys} {own : DirLoc → List ℕ} (h : Inv s own)
    (hagree : ∀ x ino, s.inodes x = some ino → ino.ent.cluster = (s.fs.entryAt x).cluster) :
    Inv ⟨s.fs, fun _ => none⟩ own where
  mounted := h.mounted
  owns := by
    intro x hx
    have hhead : s.head x = (s.fs.entryAt x).cluster := by
      unfold Sys.head
      cases hino : s.inodes x with
      | none => rfl
      | some ino => exact hagree x ino hino
    show s.fs.Owns (s.fs.entryAt x).cluster (own x)
    rw [← hhead]
    exact h.owns x hx
  apart := h.apart
  cached := fun x ino hino => by cases hino
  tidy := h.tidy

/-- The same for the one inode of a new entry. -/
theorem Inv.forget_new {fs : Fat16} {own : DirLoc → List ℕ} {loc : DirLoc} {ent : Fat16Directory}
    (h : Inv ⟨fs, Function.update (fun _ => none) loc (some (Inode.ofEntry ent loc))⟩ own)
    (hself : fs.entryAt loc = ent) : Inv ⟨fs, fun _ => none⟩ own := by
  apply h.forget
  intro x ino hino
  by_cases hx : x = loc
  · subst hx
    simp only [Function.update_self, Option.some.injEq] at hino
    subst hino
    show ent.cluster = (fs.entryAt x).cluster
    rw [hself]
  · simp only [Function.update_of_ne hx] at hino
    cases hino

@[simp] theorem Sys.record_fs (s : Sys) (r : Option Inode) (fs' : Fat16) :
    (s.record r fs').fs = fs' := by
  cases r with
  | none => rfl
  | some ino => rfl

@[simp] theorem Sys.drop_fs (s : Sys) (dir : Inode) (name : CStr) (r : Bool) (fs' : Fat16) :
    (s.drop dir name r fs').fs = fs' := by
  unfold Sys.drop
  split <;> rfl

/-- A vacant name that is rendered back is not among the listed name bytes. -/
theorem Fat16.Vacant.not_sameName {fs : Fat16} {d : ℕ} {name : CStr} {now : DosStamp}
    {attr : UInt8} {ent : Fat16Directory} (h : fs.Vacant d name)
    (hent : fat16FillEntry now name attr = some ent) (hz : 0 ∉ name)
    (hclean : cleanName name = true) (x : DirLoc) (hx : fs.Lists d x) :
    ¬SameName (fs.entryAt x) ent := by
  intro hname
  apply h x hx
  rw [hname.cmp name]
  exact (fat16FillEntry_names hent hz hclean).2

/-- **One call** that changes names: it returns, and the names stay unique. -/
theorem Fat16.NamesUnique.step {s : Sys} {own : DirLoc → List ℕ} {c : Call}
    (h : Inv ⟨s.fs, fun _ => none⟩ own) (hu : s.fs.NamesUnique) (hc : c.Naming s)
    (hback : c.ReadsBack) (hsafe : c.Safe s) :
    ∃ s' own', c.run s = some s' ∧ Inv ⟨s'.fs, fun _ => none⟩ own' ∧ s'.fs.NamesUnique := by
  cases c with
  | create now dir name =>
    rcases h.create_spec now hc.1.2 hc.2 with hrun | ⟨ent, loc, fs', own', hent, hvac, hrun, hcase⟩
    · refine ⟨s.record none s.fs, own, by simp only [Call.run, hrun, Option.map_some], h, hu⟩
    refine ⟨s.record (some (Inode.ofEntry ent loc)) fs', own',
      by simp only [Call.run, hrun, Option.map_some], ?_⟩
    rcases hcase with ⟨hprint, hinv, hadd, -⟩ | ⟨-, hinv, hsame⟩
    · have hclean : cleanName name = true := by
        rcases hback with hclean | hbad
        · exact hclean
        · rw [hprint] at hbad
          cases hbad
      have hfile : isDir ent = false := by
        simp only [isDir, (fat16FillEntry_attr hent).1]
        decide
      refine ⟨hinv.forget_new hadd.self, hu.of_added hadd (hvac.not_sameName hent hc.2 hclean) ?_⟩
      intro hdir
      rw [hfile] at hdir
      cases hdir
    · exact ⟨hinv, hu.of_sameTree hsame⟩
  | mkdir now dir name =>
    rcases h.mkdir_spec now hc.1.2 hc.2 with
      ⟨fs', hrun, hinv, hsame, -⟩ | ⟨ent, c, loc, fs', own', hent, hvac, hrun, hcase⟩
    · exact ⟨s.record none fs', own, by simp only [Call.run, hrun, Option.map_some], hinv,
        hu.of_sameTree hsame⟩
    refine ⟨s.record (some (Inode.ofEntry (dirEntry ent c) loc)) fs', own',
      by simp only [Call.run, hrun, Option.map_some], ?_⟩
    rcases hcase with ⟨hprint, hinv, hadd, hcluster, ⟨x₀, y₀, honly, hx₀, hy₀⟩, -⟩ | ⟨-, hinv, hsame⟩
    · have hclean : cleanName name = true := by
        rcases hback with hclean | hbad
        · exact hclean
        · rw [hprint] at hbad
          cases hbad
      have hdots : ∀ d', ¬SameName (dotEntry now c) (dotdotEntry now d' c) := by
        intro d' hname
        have := hname.1
        simp [dotEntry, dotdotEntry, fat16EntryStamp] at this
      have hnew : ∀ x, s.fs.Lists dir.ent.cluster x →
          ¬SameName (s.fs.entryAt x) (dirEntry ent c) :=
        fun x hx hname => hvac.not_sameName hent hc.2 hclean x hx hname
      refine ⟨hinv.forget_new hadd.self, hu.of_added hadd hnew ?_⟩
      -- the new directory lists `.` and `..`
      intro _ x y hx hy hname
      rw [hcluster] at hx hy
      simp only [Sys.record_fs] at hx hy hname
      rcases honly x hx with rfl | rfl
      · rcases honly y hy with rfl | rfl
        · rfl
        · rw [hx₀ hx, hy₀ hy] at hname
          exact absurd hname (hdots _)
      · rcases honly y hy with rfl | rfl
        · rw [hx₀ hy, hy₀ hx] at hname
          exact absurd ⟨hname.1.symm, hname.2.symm⟩ (hdots _)
        · rfl
    · exact ⟨hinv, hu.of_sameTree hsame⟩
  | unlink dir name =>
    rcases h.unlink_spec hc.2 (Call.Safe.of_owns hsafe) with
      hrun | ⟨l, loc, fs', -, -, -, -, hrun, hinv, hrem, -⟩
    · exact ⟨s.drop dir name false s.fs, own, by simp only [Call.run, hrun, Option.map_some],
        by rw [Sys.drop_fs]; exact h, by rw [Sys.drop_fs]; exact hu⟩
    · refine ⟨s.drop dir name true fs', own, by simp only [Call.run, hrun, Option.map_some], ?_⟩
      rw [Sys.drop_fs]
      rw [Function.update_eq_self_iff.mpr rfl] at hinv
      exact ⟨hinv, hu.of_removed hrem⟩
  | rmdir dir name =>
    rcases h.rmdir_spec hc.2 (Call.Safe.of_owns hsafe) with
      hrun | ⟨l, loc, fs', -, -, -, -, -, hrun, hinv, hrem, -⟩
    · exact ⟨s.drop dir name false s.fs, own, by simp only [Call.run, hrun, Option.map_some],
        by rw [Sys.drop_fs]; exact h, by rw [Sys.drop_fs]; exact hu⟩
    · refine ⟨s.drop dir name true fs', own, by simp only [Call.run, hrun, Option.map_some], ?_⟩
      rw [Sys.drop_fs]
      rw [Function.update_eq_self_iff.mpr rfl] at hinv
      exact ⟨hinv, hu.of_removed hrem⟩
  | truncate now loc => exact hc.elim
  | write now loc buf count offset => exact hc.elim
  | iget loc => exact hc.elim

/-- **Names stay unique.**  From every well-formed volume without stale slots whose directories have distinct
names, and for every sequence of calls that change names, each created name being rendered back or out of sight
and no `.` or `..` entry being removed, every call returns and no directory ever lists a name twice. -/
theorem namesUnique_of_run {fs : Fat16} {s : Sys} (hm : fs.Mounted) (hw : fs.WellFormed)
    (hstale : fs.NoStale) (hu : fs.NamesUnique)
    (hrun : Run (fun s c => c.Naming s ∧ c.ReadsBack ∧ c.Safe s) ⟨fs, fun _ => none⟩ s) :
    s.fs.NamesUnique ∧
      ∀ c : Call, c.Naming s → c.ReadsBack → c.Safe s → ∃ s', c.run s = some s' := by
  have hinv : ∃ own, Inv ⟨s.fs, fun _ => none⟩ own ∧ s.fs.NamesUnique := by
    induction hrun with
    | start =>
      obtain ⟨own, hown⟩ := Inv.start hm hw hstale
      exact ⟨own, hown, hu⟩
    | step _ hok hstep ih =>
      obtain ⟨own, hown, hu'⟩ := ih
      obtain ⟨s', own', hstep', hown', hu''⟩ := hu'.step hown hok.1 hok.2.1 hok.2.2
      rw [hstep] at hstep'
      obtain rfl := Option.some.inj hstep'
      exact ⟨own', hown', hu''⟩
  obtain ⟨own, hown, hu'⟩ := hinv
  refine ⟨hu', fun c hc hback hsafe => ?_⟩
  obtain ⟨s', -, hrun', -⟩ := hu'.step hown hc hback hsafe
  exact ⟨s', hrun'⟩

/-! ### A name stored twice -/

/-- A volume with an empty root directory and four free clusters. -/
def emptyVolume : Fat16 := smallVolume (fatOf []) (sectorOf []) fun _ _ => 0

theorem emptyVolume_holds (x : DirLoc) : ¬emptyVolume.Holds 0 x := by
  rw [holds_iff_children (.inl ⟨rfl, rfl⟩),
    show emptyVolume.children (emptyVolume.header.dirSlots 0 []) = [] by decide]
  exact List.not_mem_nil

theorem emptyVolume_dirAt {d : ℕ} (h : emptyVolume.DirAt d) : d = 0 := by
  induction h with
  | root => rfl
  | @sub e x _ hx _ ih =>
    subst ih
    exact absurd hx (emptyVolume_holds x)

theorem emptyVolume_not_live (x : DirLoc) : ¬emptyVolume.Live x := by
  intro ⟨d, hd, hx⟩
  rw [emptyVolume_dirAt hd] at hx
  exact emptyVolume_holds x hx

theorem emptyVolume_wellFormed : emptyVolume.WellFormed where
  chains := fun x hx => absurd hx (emptyVolume_not_live x)
  apart := fun x _ _ _ hx => absurd hx (emptyVolume_not_live x)
  used := fun x _ hx => absurd hx (emptyVolume_not_live x)

theorem emptyVolume_noStale : emptyVolume.NoStale := by
  intro d l hd hl
  rw [emptyVolume_dirAt hd] at hl ⊢
  rw [hl.unique (.inl ⟨rfl, rfl⟩)]
  decide

theorem emptyVolume_namesUnique : emptyVolume.NamesUnique := by
  intro d x y hd hx
  obtain ⟨l, hl, hmem⟩ := hx
  rw [emptyVolume_dirAt hd] at hl hmem
  rw [hl.unique (.inl ⟨rfl, rfl⟩), show emptyVolume.live (emptyVolume.header.dirSlots 0 []) = [] by decide]
    at hmem
  cases hmem

theorem Sys.parent_root (s : Sys) : s.Parent rootInode := ⟨by decide, .root⟩

theorem namesUnique_of_run_emptyVolume : ∃ s',
    (Call.create ⟨0, 0⟩ rootInode [0x41, 0x2E, 0x62]).run ⟨emptyVolume, fun _ => none⟩ = some s' ∧
      s'.fs.NamesUnique := by
  have hok : (Call.create ⟨0, 0⟩ rootInode [0x41, 0x2E, 0x62]).Naming ⟨emptyVolume, fun _ => none⟩ :=
    ⟨Sys.parent_root _, by decide⟩
  have hback : (Call.create ⟨0, 0⟩ rootInode [0x41, 0x2E, 0x62]).ReadsBack := .inl (by decide)
  have hm : emptyVolume.Mounted := smallVolume_mounted _ _ _
  obtain ⟨s', hstep⟩ := (namesUnique_of_run hm emptyVolume_wellFormed emptyVolume_noStale
    emptyVolume_namesUnique .start).2 _ hok hback trivial
  exact ⟨s', hstep, (namesUnique_of_run hm emptyVolume_wellFormed emptyVolume_noStale
    emptyVolume_namesUnique (.step .start ⟨hok, hback, trivial⟩ hstep)).1⟩

/-- What `fat16_create` does with a name that goes into the first reusable slot of the root directory. -/
theorem fat16Create_root {fs : Fat16} {now : DosStamp} {name : CStr} {ent : Fat16Directory}
    {loc : DirLoc} (hm : fs.Mounted) (hro : fs.readOnly = false)
    (hent : fat16FillEntry now name FAT16_ATTR_ARCHIVE = some ent)
    (hnew : fs.findIn name (fs.header.dirSlots 0 []) = none)
    (hslot : (fs.header.dirSlots 0 []).find? fs.reusable = some loc) :
    fat16Create now rootInode name fs = some (some (Inode.ofEntry ent loc), fs.setEntry loc ent) := by
  have hroot : fs.Owns rootInode.ent.cluster [] := .inl ⟨rfl, rfl⟩
  rcases fat16Create_ok hm hroot hro hent hnew with
    ⟨loc', fs', ⟨hfind, rfl⟩ | ⟨hfind, -⟩, hrun⟩ | ⟨⟨hfind, -⟩, -⟩
  · obtain rfl := Option.some.inj (hfind.symm.trans hslot)
    exact hrun
  · exact absurd (hfind.symm.trans hslot) (by simp)
  · exact absurd (hfind.symm.trans hslot) (by simp)

theorem create_root (s : Sys) (now : DosStamp) (name : CStr) (ent : Fat16Directory) (loc : DirLoc)
    (hm : s.fs.Mounted) (hro : s.fs.readOnly = false)
    (hent : fat16FillEntry now name FAT16_ATTR_ARCHIVE = some ent)
    (hnew : s.fs.findIn name (s.fs.header.dirSlots 0 []) = none)
    (hslot : (s.fs.header.dirSlots 0 []).find? s.fs.reusable = some loc) :
    (Call.create now rootInode name).run s =
      some (s.record (some (Inode.ofEntry ent loc)) (s.fs.setEntry loc ent)) := by
  simp only [Call.run, fat16Create_root hm hro hent hnew hslot, Option.map_some]

/-- The entry of `FOO`, however it was spelt. -/
def fooEntry : Fat16Directory :=
  { Fat16Directory.zero with
    name := #v[0x46, 0x4F, 0x4F, 0x20, 0x20, 0x20, 0x20, 0x20]
    extension := blankExt
    attributes := FAT16_ATTR_ARCHIVE }

/-- The root directory after `FOO` was created in it. -/
def oneFoo : Fat16 := emptyVolume.setEntry ⟨2, 0⟩ fooEntry

/-- Creating `FOO` and then `"FOO "` enters the same name bytes twice. -/
theorem not_namesUnique_trailing_space : ∃ s',
    Run (fun s c => c.Naming s) ⟨emptyVolume, fun _ => none⟩ s' ∧ emptyVolume.Mounted ∧
      emptyVolume.WellFormed ∧ emptyVolume.NoStale ∧ emptyVolume.NamesUnique ∧
      ¬s'.fs.NamesUnique := by
  have hm : emptyVolume.Mounted := smallVolume_mounted _ _ _
  have hroot : emptyVolume.Owns 0 [] := .inl ⟨rfl, rfl⟩
  have hm₁ : oneFoo.Mounted := Fat16.setEntry_mounted hm (hroot.proper hm.sound (by decide)) fooEntry
  set s₀ : Sys := ⟨emptyVolume, fun _ => none⟩ with hs₀
  set s₁ : Sys := s₀.record (some (Inode.ofEntry fooEntry ⟨2, 0⟩)) oneFoo with hs₁
  have hstep₁ : (Call.create ⟨0, 0⟩ rootInode [0x46, 0x4F, 0x4F]).run s₀ = some s₁ :=
    create_root s₀ ⟨0, 0⟩ _ fooEntry ⟨2, 0⟩ hm rfl (by decide) (by decide) (by decide)
  have hstep₂ := create_root s₁ ⟨0, 0⟩ [0x46, 0x4F, 0x4F, 0x20] fooEntry ⟨2, 32⟩ hm₁ rfl (by decide)
    (by rw [hs₁, Sys.record_fs]; decide) (by rw [hs₁, Sys.record_fs]; decide)
  have hok : ∀ s : Sys, ∀ name : CStr, 0 ∉ name → (Call.create ⟨0, 0⟩ rootInode name).Naming s :=
    fun s name hz => ⟨s.parent_root, hz⟩
  refine ⟨_, .step (.step .start (hok s₀ _ (by decide)) hstep₁) (hok s₁ _ (by decide)) hstep₂, hm,
    emptyVolume_wellFormed, emptyVolume_noStale, emptyVolume_namesUnique, ?_⟩
  rw [Sys.record_fs, hs₁, Sys.record_fs]
  intro hu
  have hx : ⟨2, 0⟩ ∈ (oneFoo.setEntry ⟨2, 32⟩ fooEntry).live
      ((oneFoo.setEntry ⟨2, 32⟩ fooEntry).header.dirSlots 0 []) := by decide
  have hy : ⟨2, 32⟩ ∈ (oneFoo.setEntry ⟨2, 32⟩ fooEntry).live
      ((oneFoo.setEntry ⟨2, 32⟩ fooEntry).header.dirSlots 0 []) := by decide
  have heq := hu 0 ⟨2, 0⟩ ⟨2, 32⟩ .root ⟨[], .inl ⟨rfl, rfl⟩, hx⟩ ⟨[], .inl ⟨rfl, rfl⟩, hy⟩ (by decide)
  simp at heq

end LizardOs.Fat
