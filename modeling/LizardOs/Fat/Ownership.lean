import LizardOs.Fat.Tree
import Mathlib.Logic.Function.Basic

/-!
# Who owns which cluster

`Inv s own` is the invariant the file-system operations preserve: `own` assigns to each live slot the chain of
clusters that belongs to it.  A file's chain starts at the first cluster its inode holds in memory, which may
already be allocated while the entry on disk still says `0`; for everything else the entry on disk decides.

Each lemma below is one kind of change: a chain is prolonged, a subdirectory grows by a zeroed cluster, an
entry is added, rewritten, emptied or removed.  Every operation is a sequence of these.
-/

namespace LizardOs.Fat

open LizardOs.Lib

/-- The volume and the inodes the kernel holds, at most one for each slot. -/
structure Sys where
  fs : Fat16
  inodes : DirLoc → Option Inode

/-- The first cluster through which a slot's file is used: the inode's, or else the entry's. -/
def Sys.head (s : Sys) (loc : DirLoc) : ℕ :=
  match s.inodes loc with
  | some ino => ino.ent.cluster
  | none => (s.fs.entryAt loc).cluster

/-- The inode is the one of the slot `loc` with the entry `e`: it agrees with the entry, except that a file
whose first cluster was just allocated may still be recorded as empty. -/
structure Caches (ino : Inode) (loc : DirLoc) (e : Fat16Directory) : Prop where
  loc : ino.loc = loc
  name : ino.ent.name = e.name
  extension : ino.ent.extension = e.extension
  attributes : ino.ent.attributes = e.attributes
  cluster : e.cluster = ino.ent.cluster ∨ (isDir e = false ∧ e.cluster = 0)

/-- The ownership invariant. -/
structure Inv (s : Sys) (own : DirLoc → List ℕ) : Prop where
  mounted : s.fs.Mounted
  owns : ∀ loc, s.fs.Live loc → s.fs.Owns (s.head loc) (own loc)
  apart : ∀ loc loc', s.fs.Live loc → s.fs.Live loc' → loc ≠ loc' → (own loc).Disjoint (own loc')
  cached : ∀ loc ino, s.inodes loc = some ino →
    s.fs.Live loc ∧ Caches ino loc (s.fs.entryAt loc)
  tidy : ∀ d l, s.fs.DirAt d → s.fs.Owns d l → s.fs.Tidy (s.fs.header.dirSlots d l)

/-- A cluster in use that belongs to no live slot; clusters marked bad do not count. -/
def Sys.Leaked (s : Sys) (own : DirLoc → List ℕ) (b : ℕ) : Prop :=
  FAT16_CLUSTER_MIN ≤ b ∧ b ≤ s.fs.header.lastCluster ∧ s.fs.fatAt b ≠ FAT16_FREE_CLUSTER ∧
    s.fs.fatAt b ≠ FAT16_BAD_CLUSTER ∧ ∀ loc, s.fs.Live loc → b ∉ own loc

theorem isDir_congr {e e' : Fat16Directory} (h : e.attributes = e'.attributes) :
    isDir e = isDir e' := by
  simp [isDir, h]

namespace Inv

variable {s : Sys} {own : DirLoc → List ℕ} {d e c : ℕ} {l m : List ℕ} {loc : DirLoc}

/-! ### What the invariant says about directories -/

theorem head_cases (h : Inv s own) (loc : DirLoc) :
    s.head loc = (s.fs.entryAt loc).cluster ∨
      (isDir (s.fs.entryAt loc) = false ∧ (s.fs.entryAt loc).cluster = 0) := by
  unfold Sys.head
  cases hino : s.inodes loc with
  | none => exact .inl rfl
  | some ino =>
    obtain ⟨-, hc⟩ := h.cached loc ino hino
    rcases hc.cluster with heq | hzero
    · exact .inl heq.symm
    · exact .inr hzero

theorem head_dir (h : Inv s own) (hdir : isDir (s.fs.entryAt loc) = true) :
    s.head loc = (s.fs.entryAt loc).cluster := by
  rcases h.head_cases loc with heq | ⟨hfile, -⟩
  · exact heq
  · rw [hfile] at hdir
    cases hdir

/-- The chain recorded on disk is the owned one, or the entry still says empty. -/
theorem disk_chain (h : Inv s own) (hlive : s.fs.Live loc) :
    s.fs.Owns (s.fs.entryAt loc).cluster (own loc) ∨ (s.fs.entryAt loc).cluster = 0 := by
  rcases h.head_cases loc with heq | ⟨-, hzero⟩
  · exact .inl (heq ▸ h.owns loc hlive)
  · exact .inr hzero

/-- Every directory of the tree is the root or the one of a live slot, whose chain it is. -/
theorem dir_owner (h : Inv s own) (hd : s.fs.DirAt d) (hne : d ≠ 0) :
    ∃ loc, s.fs.Live loc ∧ isDir (s.fs.entryAt loc) = true ∧ (s.fs.entryAt loc).cluster = d ∧
      s.fs.Owns d (own loc) := by
  cases hd with
  | root => exact absurd rfl hne
  | @sub f loc hf hx hisdir =>
    have hlive : s.fs.Live loc := ⟨f, hf, hx⟩
    refine ⟨loc, hlive, hisdir, rfl, ?_⟩
    have := h.owns loc hlive
    rwa [h.head_dir hisdir] at this

theorem dir_owns (h : Inv s own) (hd : s.fs.DirAt d) : ∃ l, s.fs.Owns d l := by
  by_cases hne : d = 0
  · exact ⟨[], .inl ⟨hne, rfl⟩⟩
  · obtain ⟨loc, -, -, -, hown⟩ := h.dir_owner hd hne
    exact ⟨own loc, hown⟩

/-- The root directory owns no cluster. -/
theorem owns_zero (hown : s.fs.Owns 0 l) : l = [] := by
  rcases hown with ⟨-, rfl⟩ | hheads
  · rfl
  · exact absurd rfl hheads.head_ne_zero

/-- Different directories have disjoint chains. -/
theorem dirs_apart (h : Inv s own) (hd : s.fs.DirAt d) (he : s.fs.DirAt e) (hne : d ≠ e)
    (hl : s.fs.Owns d l) (hm : s.fs.Owns e m) : l.Disjoint m := by
  by_cases hd0 : d = 0
  · rw [hd0] at hl
    rw [owns_zero hl]
    exact List.disjoint_nil_left m
  by_cases he0 : e = 0
  · rw [he0] at hm
    rw [owns_zero hm]
    exact List.disjoint_nil_right l
  obtain ⟨loc, hlive, -, hc, hown⟩ := h.dir_owner hd hd0
  obtain ⟨loc', hlive', -, hc', hown'⟩ := h.dir_owner he he0
  rw [hl.unique hown, hm.unique hown']
  apply h.apart loc loc' hlive hlive'
  rintro rfl
  exact hne (hc.symm.trans hc')

/-- A directory's chain is disjoint from the chain of every slot but its own. -/
theorem dir_file_apart (h : Inv s own) (hd : s.fs.DirAt d) (hl : s.fs.Owns d l)
    (hlive : s.fs.Live loc)
    (hne : isDir (s.fs.entryAt loc) = true → (s.fs.entryAt loc).cluster ≠ d) :
    l.Disjoint (own loc) := by
  by_cases hd0 : d = 0
  · rw [hd0] at hl
    rw [owns_zero hl]
    exact List.disjoint_nil_left _
  obtain ⟨loc', hlive', hdir', hc', hown'⟩ := h.dir_owner hd hd0
  rw [hl.unique hown']
  apply h.apart loc' loc hlive' hlive
  rintro rfl
  exact hne hdir' hc'

/-- Different directories share no slot. -/
theorem slots_apart (h : Inv s own) (hd : s.fs.DirAt d) (he : s.fs.DirAt e) (hne : d ≠ e)
    (hl : s.fs.Owns d l) (hm : s.fs.Owns e m) (hloc : loc ∈ s.fs.header.dirSlots d l) :
    loc ∉ s.fs.header.dirSlots e m := fun hloc' =>
  dirSlots_ne h.mounted.sound (fun _ hx => hl.min_le hx) (fun _ hx => hm.min_le hx) hne
    (h.dirs_apart hd he hne hl hm) hloc hloc' rfl

theorem lists (h : Inv s own) (hd : s.fs.DirAt d) (hl : s.fs.Owns d l) :
    s.fs.Lists d loc ↔
      loc ∈ s.fs.header.dirSlots d l ∧ fat16EntryValid (s.fs.entryAt loc) = true :=
  lists_iff hl (h.tidy d l hd hl)

theorem holds (h : Inv s own) (hd : s.fs.DirAt d) (hl : s.fs.Owns d l) :
    s.fs.Holds d loc ↔ loc ∈ s.fs.header.dirSlots d l ∧ s.fs.child loc = true :=
  holds_iff hl (h.tidy d l hd hl)

/-- A live slot is a slot of one directory of the tree, and in place. -/
theorem live_slot (h : Inv s own) (hlive : s.fs.Live loc) :
    ∃ d l, s.fs.DirAt d ∧ s.fs.Owns d l ∧ loc ∈ s.fs.header.dirSlots d l ∧
      s.fs.child loc = true ∧ loc.Proper s.fs.header := by
  obtain ⟨d, hd, hx⟩ := hlive
  obtain ⟨l, hl⟩ := h.dir_owns hd
  obtain ⟨hmem, hchild⟩ := (h.holds hd hl).mp hx
  exact ⟨d, l, hd, hl, hmem, hchild, hl.proper h.mounted.sound hmem⟩

theorem live_valid (h : Inv s own) (hlive : s.fs.Live loc) :
    fat16EntryValid (s.fs.entryAt loc) = true := by
  obtain ⟨-, -, -, -, -, hchild, -⟩ := h.live_slot hlive
  simp only [Fat16.child, Bool.and_eq_true] at hchild
  exact hchild.1

/-- **The invariant implies well-formedness.** -/
theorem wellFormed (h : Inv s own) : s.fs.WellFormed where
  chains := by
    intro loc hlive
    rcases h.disk_chain hlive with (⟨hzero, -⟩ | hheads) | hzero
    · exact .inl hzero
    · exact .inr ⟨own loc, hheads⟩
    · exact .inl hzero
  apart := by
    intro loc loc' l l' hlive hlive' hne hl hl'
    rcases h.disk_chain hlive with hown | hzero
    · rcases h.disk_chain hlive' with hown' | hzero'
      · rw [Fat16.Owns.unique (.inr hl) hown, Fat16.Owns.unique (.inr hl') hown']
        exact h.apart loc loc' hlive hlive' hne
      · exact absurd hzero' hl'.head_ne_zero
    · exact absurd hzero hl.head_ne_zero
  used := fun loc l _ hl c hc => hl.ne_free hc

end Inv

/-! ### Directories that keep their entries -/

/-- The directory `d` with the clusters `m` keeps its entries from `fs` to `fs'` and gains none. -/
structure KeepsDir (fs fs' : Fat16) (d : ℕ) (m : List ℕ) : Prop where
  entries : ∀ x ∈ fs.header.dirSlots d m, fat16EntryValid (fs.entryAt x) = true →
    fs'.entryAt x = fs.entryAt x
  slots : ∃ m', fs'.Owns d m' ∧ fs'.Tidy (fs'.header.dirSlots d m') ∧
    ∀ x, (x ∈ fs'.header.dirSlots d m' ∧ fat16EntryValid (fs'.entryAt x) = true) ↔
      (x ∈ fs.header.dirSlots d m ∧ fat16EntryValid (fs.entryAt x) = true)

theorem child_congr {fs fs' : Fat16} {x : DirLoc} (h : fs'.entryAt x = fs.entryAt x) :
    fs'.child x = fs.child x := by
  simp [Fat16.child, h]

theorem valid_of_zero {fs : Fat16} {x : DirLoc} (h : fs.entryAt x = Fat16Directory.zero) :
    fat16EntryValid (fs.entryAt x) = false := by
  rw [h]
  decide

theorem child_of_zero {fs : Fat16} {x : DirLoc} (h : fs.entryAt x = Fat16Directory.zero) :
    fs.child x = false := by
  simp [Fat16.child, valid_of_zero h]

/-- What stays when every directory keeps its entries. -/
structure SameTree (fs fs' : Fat16) : Prop where
  dirAt : ∀ e, fs'.DirAt e ↔ fs.DirAt e
  lists : ∀ e, fs.DirAt e → ∀ x, fs'.Lists e x ↔ fs.Lists e x
  listed : ∀ e x, fs.DirAt e → fs.Lists e x → fs'.entryAt x = fs.entryAt x
  live : ∀ x, fs'.Live x ↔ fs.Live x
  tidy : ∀ d m, fs'.DirAt d → fs'.Owns d m → fs'.Tidy (fs'.header.dirSlots d m)

namespace SameTree

variable {fs fs' : Fat16}

theorem entry (h : SameTree fs fs') (x : DirLoc) (hx : fs.Live x) :
    fs'.entryAt x = fs.entryAt x := by
  obtain ⟨e, he, hx⟩ := hx
  exact h.listed e x he hx.1

theorem refl (ht : ∀ d m, fs.DirAt d → fs.Owns d m → fs.Tidy (fs.header.dirSlots d m)) :
    SameTree fs fs :=
  ⟨fun _ => Iff.rfl, fun _ _ _ => Iff.rfl, fun _ _ _ _ => rfl, fun _ => Iff.rfl, ht⟩

end SameTree

theorem Inv.sameTree {s : Sys} {own : DirLoc → List ℕ} {fs' : Fat16} (h : Inv s own)
    (hk : ∀ d m, s.fs.DirAt d → s.fs.Owns d m → KeepsDir s.fs fs' d m) : SameTree s.fs fs' := by
  have hlists : ∀ e, s.fs.DirAt e → ∀ x, fs'.Lists e x ↔ s.fs.Lists e x := by
    intro e he x
    obtain ⟨m, hm⟩ := h.dir_owns he
    obtain ⟨m', hm', htidy, hiff⟩ := (hk e m he hm).slots
    rw [lists_iff hm' htidy, lists_iff hm (h.tidy e m he hm)]
    exact hiff x
  have hentry : ∀ e x, s.fs.DirAt e → s.fs.Lists e x → fs'.entryAt x = s.fs.entryAt x := by
    intro e x he hx
    obtain ⟨m, hm⟩ := h.dir_owns he
    obtain ⟨hmem, hv⟩ := (lists_iff hm (h.tidy e m he hm)).mp hx
    exact (hk e m he hm).entries x hmem hv
  have hholds : ∀ e, s.fs.DirAt e → ∀ x, fs'.Holds e x ↔ s.fs.Holds e x := by
    intro e he x
    simp only [Fat16.Holds, hlists e he x]
    constructor
    · rintro ⟨hx, hdot⟩
      exact ⟨hx, by rw [← hentry e x he hx]; exact hdot⟩
    · rintro ⟨hx, hdot⟩
      exact ⟨hx, by rw [hentry e x he hx]; exact hdot⟩
  obtain ⟨hdir, hlive⟩ := tree_same hholds fun e x he hx => by
    rw [hentry e x he hx.1]
    exact ⟨rfl, fun _ => rfl⟩
  refine ⟨hdir, hlists, hentry, hlive, ?_⟩
  intro d m hd hm
  have hd' := (hdir d).mp hd
  obtain ⟨m₀, hm₀⟩ := h.dir_owns hd'
  obtain ⟨m', hm', htidy, -⟩ := (hk d m₀ hd' hm₀).slots
  rw [hm.unique hm']
  exact htidy

/-! ### A chain is prolonged -/

section Extends

variable {fs fs' : Fat16} {c e : ℕ} {l l' m : List ℕ}

/-- A chain disjoint from the prolonged one stays, with the slots in it. -/
theorem Fat16.Extends.other (h : fs.Extends fs' c l l') (hs : fs.header.Sound) (ho : fs.Owns e m)
    (hdisj : m.Disjoint l) :
    m.Disjoint l' ∧ fs'.Owns e m ∧ ∀ x ∈ fs.header.dirSlots e m, fs'.entryAt x = fs.entryAt x := by
  have hdisj' : m.Disjoint l' := by
    obtain ⟨n, rfl, hn⟩ := h.fresh
    intro b hb hb'
    rcases List.mem_append.mp hb' with hb' | hb'
    · exact hdisj hb hb'
    · exact ho.ne_free hb (hn b hb')
  refine ⟨hdisj', ?_, ?_⟩
  · exact ho.congr h.header fun b hb => h.fat b (ho.inside hb) fun hb' => hdisj' hb hb'
  · intro x hx
    have hp := ho.proper hs hx
    unfold Fat16.entryAt
    rw [h.disk x.lba hp.root_le]
    intro b hb i hi
    exact dirSlots_disjoint hs (fun _ hy => ho.min_le hy) (h.heads.min_le hb)
      (fun hbm => hdisj' hbm hb) hx hi

theorem Fat16.Extends.keepsDir (h : fs.Extends fs' c l l') (hs : fs.header.Sound)
    (ho : fs.Owns e m) (hdisj : m.Disjoint l) (ht : fs.Tidy (fs.header.dirSlots e m)) :
    KeepsDir fs fs' e m := by
  obtain ⟨-, ho', hent⟩ := h.other hs ho hdisj
  refine ⟨fun x hx _ => hent x hx, m, ho', ?_, ?_⟩
  · rw [h.header]
    exact ht.congr hent
  · intro x
    rw [h.header]
    constructor
    · intro ⟨hx, hv⟩
      exact ⟨hx, by rw [← hent x hx]; exact hv⟩
    · intro ⟨hx, hv⟩
      exact ⟨hx, by rw [hent x hx]; exact hv⟩

end Extends

namespace Inv

variable {s : Sys} {own : DirLoc → List ℕ} {fs' : Fat16} {c d : ℕ} {l l' : List ℕ} {loc : DirLoc}

/-- The invariant holds again when the tree is the same and every chain is still there. -/
theorem of_sameTree (h : Inv s own) (hsame : SameTree s.fs fs') (hm : fs'.Mounted)
    (howns : ∀ x, s.fs.Live x → fs'.Owns (s.head x) (own x)) : Inv ⟨fs', s.inodes⟩ own where
  mounted := hm
  owns := by
    intro x hx
    have hx' := (hsame.live x).mp hx
    have hhead : (⟨fs', s.inodes⟩ : Sys).head x = s.head x := by
      simp only [Sys.head, hsame.entry x hx']
    rw [hhead]
    exact howns x hx'
  apart := fun x y hx hy hne => h.apart x y ((hsame.live x).mp hx) ((hsame.live y).mp hy) hne
  cached := by
    intro x ino hino
    obtain ⟨hlive, hc⟩ := h.cached x ino hino
    refine ⟨(hsame.live x).mpr hlive, ?_⟩
    rw [hsame.entry x hlive]
    exact hc
  tidy := hsame.tidy

/-- A fresh chain belongs to nobody yet. -/
theorem fresh (h : Inv s own) (hext : s.fs.Extends fs' c [] l') :
    Inv ⟨fs', s.inodes⟩ own ∧ SameTree s.fs fs' ∧
      ∀ loc, s.fs.Live loc → (own loc).Disjoint l' := by
  have hs := h.mounted.sound
  have hsame := h.sameTree fun d m hd hm =>
    hext.keepsDir hs hm (List.disjoint_nil_right m) (h.tidy d m hd hm)
  have hother := fun x (hx : s.fs.Live x) =>
    hext.other hs (h.owns x hx) (List.disjoint_nil_right _)
  exact ⟨h.of_sameTree hsame hext.mounted fun x hx => (hother x hx).2.1, hsame,
    fun x hx => (hother x hx).1⟩

theorem leaked_fresh {b : ℕ} (hext : s.fs.Extends fs' c [] l') (hsame : SameTree s.fs fs')
    (hb : (⟨fs', s.inodes⟩ : Sys).Leaked own b) : s.Leaked own b ∨ b ∈ l' := by
  obtain ⟨h1, h2, h3, h4, h5⟩ := hb
  rw [hext.header] at h2
  by_cases hbl : b ∈ l'
  · exact .inr hbl
  · left
    rw [hext.fat b h2 hbl] at h3 h4
    exact ⟨h1, h2, h3, h4, fun y hy => h5 y ((hsame.live y).mpr hy)⟩

/-- Prolonging a chain leaks nothing: its owner owns the fresh clusters. -/
theorem leaked_extend {inodes : DirLoc → Option Inode} {b : ℕ} (hlive : s.fs.Live loc)
    (hext : s.fs.Extends fs' c (own loc) l') (hsame : SameTree s.fs fs')
    (hb : (⟨fs', inodes⟩ : Sys).Leaked (Function.update own loc l') b) : s.Leaked own b := by
  obtain ⟨h1, h2, h3, h4, h5⟩ := hb
  rw [hext.header] at h2
  have hbl : b ∉ l' := by
    have := h5 loc ((hsame.live loc).mpr hlive)
    rwa [Function.update_self] at this
  rw [hext.fat b h2 hbl] at h3 h4
  refine ⟨h1, h2, h3, h4, fun y hy => ?_⟩
  by_cases hyl : y = loc
  · rw [hyl]
    exact fun hb => hbl (hext.sub b hb)
  · have := h5 y ((hsame.live y).mpr hy)
    rwa [Function.update_of_ne hyl] at this

/-- **A file's chain is prolonged**, and its inode learns the first cluster. -/
theorem extendFile {ino : Inode} (h : Inv s own) (hino : s.inodes loc = some ino)
    (hfile : isDir ino.ent = false) (hext : s.fs.Extends fs' c (own loc) l') :
    Inv ⟨fs', Function.update s.inodes loc (some (ino.withCluster c))⟩
      (Function.update own loc l') ∧ SameTree s.fs fs' := by
  have hs := h.mounted.sound
  obtain ⟨hlive, hcache⟩ := h.cached loc ino hino
  have hfile' : isDir (s.fs.entryAt loc) = false := by
    rw [← isDir_congr hcache.attributes]
    exact hfile
  have hsame : SameTree s.fs fs' := h.sameTree fun d m hd hm =>
    hext.keepsDir hs hm
      (h.dir_file_apart hd hm hlive fun hdir => by rw [hfile'] at hdir; cases hdir)
      (h.tidy d m hd hm)
  have hother : ∀ x, s.fs.Live x → x ≠ loc → (own x).Disjoint l' ∧ fs'.Owns (s.head x) (own x) := by
    intro x hx hne
    obtain ⟨h1, h2, -⟩ := hext.other hs (h.owns x hx) (h.apart x loc hx hlive hne)
    exact ⟨h1, h2⟩
  have hcluster := ino.withCluster_cluster hext.heads.head_lt
  refine ⟨⟨hext.mounted, ?_, ?_, ?_, hsame.tidy⟩, hsame⟩
  · intro x hx
    have hx' := (hsame.live x).mp hx
    by_cases hxl : x = loc
    · subst hxl
      simp only [Sys.head, Function.update_self, hcluster]
      exact .inr hext.heads
    · have hhead : (⟨fs', Function.update s.inodes loc (some (ino.withCluster c))⟩ : Sys).head x
          = s.head x := by
        simp only [Sys.head, Function.update_of_ne hxl, hsame.entry x hx']
      rw [hhead, Function.update_of_ne hxl]
      exact (hother x hx' hxl).2
  · intro x y hx hy hne
    have hx' := (hsame.live x).mp hx
    have hy' := (hsame.live y).mp hy
    by_cases hxl : x = loc
    · have hyl : y ≠ loc := fun hyl => hne (hxl.trans hyl.symm)
      rw [hxl, Function.update_self, Function.update_of_ne hyl]
      exact List.disjoint_symm (hother y hy' hyl).1
    · rw [Function.update_of_ne hxl]
      by_cases hyl : y = loc
      · rw [hyl, Function.update_self]
        exact (hother x hx' hxl).1
      · rw [Function.update_of_ne hyl]
        exact h.apart x y hx' hy' hne
  · intro x ino' hino'
    by_cases hxl : x = loc
    · subst hxl
      simp only [Function.update_self, Option.some.injEq] at hino'
      subst hino'
      refine ⟨(hsame.live x).mpr hlive, ?_⟩
      rw [hsame.entry x hlive]
      refine ⟨hcache.loc, hcache.name, hcache.extension, hcache.attributes, ?_⟩
      rw [hcluster]
      rcases hcache.cluster with heq | hzero
      · -- the entry records a cluster: then it heads the chain already
        have hown := h.owns x hlive
        rw [show s.head x = ino.ent.cluster by simp only [Sys.head, hino]] at hown
        rcases hown with ⟨hzero, -⟩ | hheads
        · exact .inr ⟨hfile', heq.trans hzero⟩
        · left
          obtain ⟨m, hm⟩ := hheads.head
          obtain ⟨n, hn, -⟩ := hext.fresh
          obtain ⟨k, hk⟩ := hext.heads.head
          rw [hn, hm] at hk
          rw [heq]
          exact (List.cons.inj hk).1
      · exact .inr hzero
    · simp only [Function.update_of_ne hxl] at hino'
      obtain ⟨hx, hc⟩ := h.cached x ino' hino'
      refine ⟨(hsame.live x).mpr hx, ?_⟩
      rw [hsame.entry x hx]
      exact hc

/-- **A subdirectory grows** by a zeroed cluster. -/
theorem growDir {x a : ℕ} (h : Inv s own) (hd : s.fs.DirAt d) (hl : s.fs.Heads d l)
    (hx : l.getLast? = some x) (hmin : FAT16_CLUSTER_MIN ≤ a) (ha : a ≤ s.fs.header.lastCluster)
    (hfree : s.fs.fatAt a = FAT16_FREE_CLUSTER) :
    (∃ owner, s.fs.Live owner ∧ own owner = l ∧
      Inv ⟨s.fs.grow x a, s.inodes⟩ (Function.update own owner (l ++ [a]))) ∧
      SameTree s.fs (s.fs.grow x a) := by
  have hs := h.mounted.sound
  have hext := Fat16.Extends.of_grow h.mounted hl hx hmin ha hfree
  have hd0 := hl.head_ne_zero
  obtain ⟨owner, hlive, hdir, hcl, hown⟩ := h.dir_owner hd hd0
  have hol : own owner = l := hown.unique (.inr hl)
  have hal : a ∉ l := fun hmem => hl.ne_free hmem hfree
  -- the slots the directory had
  have hold : ∀ y ∈ s.fs.header.dirSlots d l, (s.fs.grow x a).entryAt y = s.fs.entryAt y :=
    fun y hy => Fat16.grow_entryAt_other hs (hl.inside (List.mem_of_getLast? hx)) hmin ha
      (fun _ hz => hl.min_le hz) hal hy
  have hnew : ∀ y ∈ [a].flatMap s.fs.header.clusterSlots,
      (s.fs.grow x a).entryAt y = Fat16Directory.zero := by
    intro y hy
    rw [List.flatMap_singleton] at hy
    exact Fat16.grow_entryAt hs hy
  have hsame : SameTree s.fs (s.fs.grow x a) := by
    apply h.sameTree
    intro e m he hm
    by_cases hed : e = d
    · subst hed
      obtain rfl : m = l := hm.unique (.inr hl)
      refine ⟨fun y hy _ => hold y hy, m ++ [a], .inr hext.heads, ?_, ?_⟩
      · rw [Fat16.grow_header, dirSlots_append hd0]
        exact ((h.tidy e m he hm).congr hold).append_zero hnew (by decide)
      · intro y
        rw [Fat16.grow_header, dirSlots_append hd0, List.mem_append]
        constructor
        · rintro ⟨hy | hy, hv⟩
          · exact ⟨hy, by rw [← hold y hy]; exact hv⟩
          · rw [valid_of_zero (hnew y hy)] at hv
            cases hv
        · rintro ⟨hy, hv⟩
          exact ⟨.inl hy, by rw [hold y hy]; exact hv⟩
    · exact hext.keepsDir hs hm (h.dirs_apart he hd hed hm (.inr hl)) (h.tidy e m he hm)
  have hother : ∀ y, s.fs.Live y → y ≠ owner →
      (own y).Disjoint (l ++ [a]) ∧ (s.fs.grow x a).Owns (s.head y) (own y) := by
    intro y hy hne
    have hdisj := h.apart y owner hy hlive hne
    rw [hol] at hdisj
    obtain ⟨h1, h2, -⟩ := hext.other hs (h.owns y hy) hdisj
    exact ⟨h1, h2⟩
  have hhead : ∀ y, s.fs.Live y → (⟨s.fs.grow x a, s.inodes⟩ : Sys).head y = s.head y := by
    intro y hy
    simp only [Sys.head, hsame.entry y hy]
  refine ⟨⟨owner, hlive, hol, hext.mounted, ?_, ?_, ?_, hsame.tidy⟩, hsame⟩
  · intro y hy
    have hy' := (hsame.live y).mp hy
    rw [hhead y hy']
    by_cases hyo : y = owner
    · rw [hyo, Function.update_self, h.head_dir hdir, hcl]
      exact .inr hext.heads
    · rw [Function.update_of_ne hyo]
      exact (hother y hy' hyo).2
  · intro y z hy hz hne
    have hy' := (hsame.live y).mp hy
    have hz' := (hsame.live z).mp hz
    by_cases hyo : y = owner
    · have hzo : z ≠ owner := fun hzo => hne (hyo.trans hzo.symm)
      rw [hyo, Function.update_self, Function.update_of_ne hzo]
      exact List.disjoint_symm (hother z hz' hzo).1
    · rw [Function.update_of_ne hyo]
      by_cases hzo : z = owner
      · rw [hzo, Function.update_self]
        exact (hother y hy' hyo).1
      · rw [Function.update_of_ne hzo]
        exact h.apart y z hy' hz' hne
  · intro y ino hino
    obtain ⟨hy, hc⟩ := h.cached y ino hino
    refine ⟨(hsame.live y).mpr hy, ?_⟩
    rw [hsame.entry y hy]
    exact hc

/-- Clusters that belong to nobody may be freed. -/
theorem freeUnowned {m : List ℕ} (h : Inv s own) (hin : ∀ b ∈ m, b ≤ s.fs.header.lastCluster)
    (hdisj : ∀ x, s.fs.Live x → (own x).Disjoint m) :
    Inv ⟨s.fs.freeAll m, s.inodes⟩ own ∧ SameTree s.fs (s.fs.freeAll m) := by
  have hs := h.mounted.sound
  have howns : ∀ {e n}, s.fs.Owns e n → n.Disjoint m → (s.fs.freeAll m).Owns e n := by
    intro e n hn hnm
    apply hn.congr (Fat16.freeAll_header _ _)
    intro b hb
    rw [Fat16.fatAt_freeAll hs hin (hn.inside hb), if_neg (fun hbm => hnm hb hbm)]
  have hdirs : ∀ e n, s.fs.DirAt e → s.fs.Owns e n → n.Disjoint m := by
    intro e n he hn
    by_cases he0 : e = 0
    · rw [he0] at hn
      rw [owns_zero hn]
      exact List.disjoint_nil_left m
    · obtain ⟨owner, hlive, -, -, hown⟩ := h.dir_owner he he0
      rw [hn.unique hown]
      exact hdisj owner hlive
  have hsame : SameTree s.fs (s.fs.freeAll m) := by
    apply h.sameTree
    intro e n he hn
    have hent : ∀ x ∈ s.fs.header.dirSlots e n, (s.fs.freeAll m).entryAt x = s.fs.entryAt x :=
      fun x hx => Fat16.freeAll_entryAt hs hin (hn.proper hs hx).root_le
    refine ⟨fun x hx _ => hent x hx, n, howns hn (hdirs e n he hn), ?_, ?_⟩
    · rw [Fat16.freeAll_header]
      exact (h.tidy e n he hn).congr hent
    · intro x
      rw [Fat16.freeAll_header]
      constructor
      · intro ⟨hx, hv⟩
        exact ⟨hx, by rw [← hent x hx]; exact hv⟩
      · intro ⟨hx, hv⟩
        exact ⟨hx, by rw [hent x hx]; exact hv⟩
  exact ⟨h.of_sameTree hsame (Fat16.freeAll_mounted h.mounted hin)
    fun x hx => howns (h.owns x hx) (hdisj x hx), hsame⟩

end Inv

theorem SameTree.trans {fs fs₁ fs₂ : Fat16} (h : SameTree fs fs₁) (h' : SameTree fs₁ fs₂) :
    SameTree fs fs₂ where
  dirAt := fun e => (h'.dirAt e).trans (h.dirAt e)
  lists := fun e he x => (h'.lists e ((h.dirAt e).mpr he) x).trans (h.lists e he x)
  listed := fun e x he hx =>
    (h'.listed e x ((h.dirAt e).mpr he) ((h.lists e he x).mpr hx)).trans (h.listed e x he hx)
  live := fun x => (h'.live x).trans (h.live x)
  tidy := h'.tidy

end LizardOs.Fat
