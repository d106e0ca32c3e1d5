import LizardOs.Fat.Ownership

/-!
# A slot changes

The updates that go through a directory slot: an entry is added in a reusable slot, rewritten under its name,
or removed.  Each comes with the chain it brings or frees, keeps the ownership invariant, and says what the
tree looks like afterwards (`Added`, `Rewritten`, `Removed`).
-/

namespace LizardOs.Fat

open LizardOs.Lib

/-- The tree gained the entry `ent` in the slot `loc` of the directory `d`. -/
structure Added (fs fs' : Fat16) (d : ℕ) (loc : DirLoc) (ent : Fat16Directory) : Prop where
  fresh : ∀ e, fs.DirAt e → ¬fs.Lists e loc
  dirAt : ∀ e, fs'.DirAt e ↔ fs.DirAt e ∨ (isDir ent = true ∧ e = ent.cluster)
  lists : ∀ e, fs.DirAt e → ∀ x, fs'.Lists e x ↔ fs.Lists e x ∨ (e = d ∧ x = loc)
  listed : ∀ e x, fs.DirAt e → fs.Lists e x → fs'.entryAt x = fs.entryAt x
  live : ∀ x, fs'.Live x ↔ fs.Live x ∨ x = loc
  self : fs'.entryAt loc = ent

/-- The live slot `loc` got the entry `ent`; the tree is the same. -/
structure Rewritten (fs fs' : Fat16) (loc : DirLoc) (ent : Fat16Directory) : Prop where
  dirAt : ∀ e, fs'.DirAt e ↔ fs.DirAt e
  lists : ∀ e, fs.DirAt e → ∀ x, fs'.Lists e x ↔ fs.Lists e x
  listed : ∀ e x, fs.DirAt e → fs.Lists e x → x ≠ loc → fs'.entryAt x = fs.entryAt x
  live : ∀ x, fs'.Live x ↔ fs.Live x
  self : fs'.entryAt loc = ent

/-- The tree lost the slot `loc`, and the directory behind it. -/
structure Removed (fs fs' : Fat16) (loc : DirLoc) : Prop where
  dirAt : ∀ e, fs'.DirAt e ↔
    fs.DirAt e ∧ (isDir (fs.entryAt loc) = true → e ≠ (fs.entryAt loc).cluster)
  lists : ∀ e, fs'.DirAt e → ∀ x, fs'.Lists e x ↔ x ≠ loc ∧ fs.Lists e x
  listed : ∀ e x, fs.DirAt e → fs.Lists e x → x ≠ loc → fs'.entryAt x = fs.entryAt x
  live : ∀ x, fs'.Live x ↔ fs.Live x ∧ x ≠ loc

section

variable {fs fs₁ fs' : Fat16} {d : ℕ} {loc : DirLoc} {ent : Fat16Directory}

theorem Added.not_live (h : Added fs fs' d loc ent) : ¬fs.Live loc :=
  fun ⟨e, he, hx⟩ => h.fresh e he hx.1

theorem Added.of_sameTree (h : SameTree fs fs₁) (ha : Added fs₁ fs' d loc ent) :
    Added fs fs' d loc ent where
  fresh := fun e he hx => ha.fresh e ((h.dirAt e).mpr he) ((h.lists e he loc).mpr hx)
  dirAt := fun e => by rw [ha.dirAt e, h.dirAt e]
  lists := fun e he x => by rw [ha.lists e ((h.dirAt e).mpr he) x, h.lists e he x]
  listed := fun e x he hx =>
    (ha.listed e x ((h.dirAt e).mpr he) ((h.lists e he x).mpr hx)).trans (h.listed e x he hx)
  live := fun x => by rw [ha.live x, h.live x]
  self := ha.self

theorem Rewritten.of_sameTree (h : SameTree fs fs₁) (hr : Rewritten fs₁ fs' loc ent) :
    Rewritten fs fs' loc ent where
  dirAt := fun e => (hr.dirAt e).trans (h.dirAt e)
  lists := fun e he x => (hr.lists e ((h.dirAt e).mpr he) x).trans (h.lists e he x)
  listed := fun e x he hx hne =>
    (hr.listed e x ((h.dirAt e).mpr he) ((h.lists e he x).mpr hx) hne).trans (h.listed e x he hx)
  live := fun x => (hr.live x).trans (h.live x)
  self := hr.self

end

/-- An entry in use other than `.` and `..`. -/
def childEntry (e : Fat16Directory) : Bool := fat16EntryValid e && !fat16IsDot e

theorem eraseEntry_first (e : Fat16Directory) :
    (eraseEntry e).first = FAT16_DIR_ENTRY_DELETED := by
  simp [eraseEntry, Fat16Directory.first]

theorem eraseEntry_invalid (e : Fat16Directory) : fat16EntryValid (eraseEntry e) = false :=
  fat16EntryValid_of_deleted (eraseEntry_first e)

theorem childEntry_valid {e : Fat16Directory} (h : childEntry e = true) :
    fat16EntryValid e = true := by
  simp only [childEntry, Bool.and_eq_true] at h
  exact h.1

theorem childEntry_first {e : Fat16Directory} (h : childEntry e = true) :
    e.first ≠ FAT16_DIR_ENTRY_END := by
  intro hend
  simp [childEntry, fat16EntryValid_of_end hend] at h

namespace Fat16

variable {fs : Fat16} {m : List ℕ} {loc : DirLoc} {ent : Fat16Directory}

@[simp] theorem release_header (fs : Fat16) (m : List ℕ) (loc : DirLoc) (ent : Fat16Directory) :
    (fs.release m loc ent).header = fs.header := by
  rw [release, setEntry_header, freeAll_header]

@[simp] theorem release_readOnly (fs : Fat16) (m : List ℕ) (loc : DirLoc) (ent : Fat16Directory) :
    (fs.release m loc ent).readOnly = fs.readOnly := by
  rw [release, setEntry_readOnly, freeAll_readOnly]

theorem release_mounted (hm : fs.Mounted) (hin : ∀ b ∈ m, b ≤ fs.header.lastCluster)
    (hloc : loc.Proper fs.header) : (fs.release m loc ent).Mounted :=
  setEntry_mounted (freeAll_mounted hm hin) (by rw [freeAll_header]; exact hloc) ent

theorem release_fatAt (hs : fs.header.Sound) (hin : ∀ b ∈ m, b ≤ fs.header.lastCluster)
    (hloc : loc.Proper fs.header) {c : ℕ} (hc : c ≤ fs.header.lastCluster) :
    (fs.release m loc ent).fatAt c = if c ∈ m then FAT16_FREE_CLUSTER else fs.fatAt c := by
  rw [release, setEntry_fatAt (by rw [freeAll_header]; exact hs) (by rw [freeAll_header]; exact hloc)
    ent (by rw [freeAll_header]; exact hc), fatAt_freeAll hs hin hc]

theorem release_entryAt_self (fs : Fat16) (m : List ℕ) (loc : DirLoc) (ent : Fat16Directory) :
    (fs.release m loc ent).entryAt loc = ent := setEntry_entryAt_self _ _ _

theorem release_entryAt_ne (hs : fs.header.Sound) (hin : ∀ b ∈ m, b ≤ fs.header.lastCluster)
    (hloc : loc.Proper fs.header) {x : DirLoc} (hx : x.Proper fs.header) (hne : x ≠ loc) :
    (fs.release m loc ent).entryAt x = fs.entryAt x := by
  rw [release, setEntry_entryAt_ne hloc hx hne, freeAll_entryAt hs hin hx.root_le]

/-- A chain that shares no cluster with the freed one stays. -/
theorem release_owns {e : ℕ} {l : List ℕ} (hs : fs.header.Sound)
    (hin : ∀ b ∈ m, b ≤ fs.header.lastCluster) (hloc : loc.Proper fs.header) (ho : fs.Owns e l)
    (hdisj : l.Disjoint m) : (fs.release m loc ent).Owns e l := by
  apply ho.congr (release_header fs m loc ent)
  intro x hx
  rw [release_fatAt hs hin hloc (ho.inside hx), if_neg (fun hxm => hdisj hx hxm)]

/-- Freeing a chain moves no slot. -/
theorem freeAll_firstByte (hs : fs.header.Sound) (hin : ∀ b ∈ m, b ≤ fs.header.lastCluster)
    {x : DirLoc} (hx : x.Proper fs.header) : (fs.freeAll m).firstByte x = fs.firstByte x := by
  unfold firstByte
  rw [freeAll_disk hs hin hx.root_le]

end Fat16

namespace Inv

variable {s : Sys} {own : DirLoc → List ℕ} {d : ℕ} {l m : List ℕ} {loc : DirLoc}
  {ent : Fat16Directory}

/-- What a directory holds after a slot was rewritten and a chain it does not use was freed. -/
theorem release_dir (h : Inv s own) (hd : s.fs.DirAt d) (hl : s.fs.Owns d l) (hdisj : l.Disjoint m)
    (hin : ∀ b ∈ m, b ≤ s.fs.header.lastCluster) (hloc : loc.Proper s.fs.header)
    (hfirst : ent.first ≠ FAT16_DIR_ENTRY_END)
    (hslot : (s.fs.header.dirSlots d l).find? s.fs.reusable = some loc ∨
      fat16EntryValid (s.fs.entryAt loc) = true ∨ loc ∉ s.fs.header.dirSlots d l) :
    (s.fs.release m loc ent).Owns d l ∧
    (s.fs.release m loc ent).Tidy (s.fs.header.dirSlots d l) ∧
    (∀ x ∈ s.fs.header.dirSlots d l, x ≠ loc →
      (s.fs.release m loc ent).entryAt x = s.fs.entryAt x) ∧
    ∀ x, (s.fs.release m loc ent).Lists d x ↔
      (x ≠ loc ∧ s.fs.Lists d x) ∨
      (x = loc ∧ loc ∈ s.fs.header.dirSlots d l ∧ fat16EntryValid ent = true) := by
  have hs := h.mounted.sound
  have hp : ∀ x ∈ s.fs.header.dirSlots d l, x.Proper s.fs.header := fun x hx => hl.proper hs hx
  have hown : (s.fs.release m loc ent).Owns d l := Fat16.release_owns hs hin hloc hl hdisj
  have htidy : (s.fs.release m loc ent).Tidy (s.fs.header.dirSlots d l) := by
    have hfree : (s.fs.freeAll m).Tidy (s.fs.header.dirSlots d l) :=
      (h.tidy d l hd hl).congr fun x hx => Fat16.freeAll_entryAt hs hin (hp x hx).root_le
    apply hfree.setEntry (dirSlots_nodup hs hl) (by rw [Fat16.freeAll_header]; exact hp)
      (by rw [Fat16.freeAll_header]; exact hloc) hfirst
    rcases hslot with hfind | hv | hout
    · left
      rw [← hfind, ← List.head?_filter, ← List.head?_filter]
      congr 1
      apply List.filter_congr
      intro x hx
      simp only [Fat16.reusable, Fat16.freeAll_firstByte hs hin (hp x hx)]
    · right; left
      rw [Fat16.freeAll_entryAt hs hin hloc.root_le, hv]
      decide
    · exact .inr (.inr hout)
  have hent : ∀ x ∈ s.fs.header.dirSlots d l, x ≠ loc →
      (s.fs.release m loc ent).entryAt x = s.fs.entryAt x :=
    fun x hx hne => Fat16.release_entryAt_ne hs hin hloc (hp x hx) hne
  refine ⟨hown, htidy, hent, ?_⟩
  intro x
  have htidy' : (s.fs.release m loc ent).Tidy
      ((s.fs.release m loc ent).header.dirSlots d l) := by
    rw [Fat16.release_header]
    exact htidy
  rw [lists_iff hown htidy', lists_iff hl (h.tidy d l hd hl), Fat16.release_header]
  by_cases hx : x = loc
  · subst hx
    rw [Fat16.release_entryAt_self]
    simp
  · constructor
    · rintro ⟨hmem, hv⟩
      exact .inl ⟨hx, hmem, by rw [← hent x hmem hx]; exact hv⟩
    · rintro (⟨-, hmem, hv⟩ | ⟨hxl, -⟩)
      · exact ⟨hmem, by rw [hent x hmem hx]; exact hv⟩
      · exact absurd hxl hx

/-- The same for the entries other than `.` and `..`. -/
theorem release_holds {fs' : Fat16} (hself : fs'.entryAt loc = ent)
    (hent : ∀ x, s.fs.Lists d x → x ≠ loc → fs'.entryAt x = s.fs.entryAt x)
    (hlists : ∀ x, fs'.Lists d x ↔ (x ≠ loc ∧ s.fs.Lists d x) ∨
      (x = loc ∧ loc ∈ s.fs.header.dirSlots d l ∧ fat16EntryValid ent = true)) (x : DirLoc) :
    fs'.Holds d x ↔ (x ≠ loc ∧ s.fs.Holds d x) ∨
      (x = loc ∧ loc ∈ s.fs.header.dirSlots d l ∧ childEntry ent = true) := by
  rw [Fat16.Holds, hlists x]
  by_cases hx : x = loc
  · subst hx
    rw [hself]
    simp [childEntry, and_assoc]
  · constructor
    · rintro ⟨⟨-, hl⟩ | ⟨hxl, -⟩, hdot⟩
      · rw [hent x hl hx] at hdot
        exact .inl ⟨hx, hl, hdot⟩
      · exact absurd hxl hx
    · rintro (⟨-, hl, hdot⟩ | ⟨hxl, -⟩)
      · refine ⟨.inl ⟨hx, hl⟩, ?_⟩
        rw [hent x hl hx]
        exact hdot
      · exact absurd hxl hx

/-- **A live entry is rewritten** under its name: with its own chain kept, or freed and forgotten. -/
theorem rewrite {ino : Inode} (ino' : Inode) (l' : List ℕ) (h : Inv s own) (hino : s.inodes loc = some ino)
    (hfile : isDir ino.ent = false) (hloc : ino'.loc = ino.loc)
    (hname : ino'.ent.name = ino.ent.name) (hext : ino'.ent.extension = ino.ent.extension)
    (hattr : ino'.ent.attributes = ino.ent.attributes)
    (hcase : (m = [] ∧ l' = own loc ∧ ino'.ent.cluster = ino.ent.cluster) ∨
      (m = own loc ∧ l' = [] ∧ ino'.ent.cluster = 0)) :
    Inv ⟨s.fs.release m loc ino'.ent, Function.update s.inodes loc (some ino')⟩
      (Function.update own loc l') ∧
    Rewritten s.fs (s.fs.release m loc ino'.ent) loc ino'.ent := by
  have hs := h.mounted.sound
  obtain ⟨hlive, hcache⟩ := h.cached loc ino hino
  obtain ⟨-, -, -, -, -, hchild, hp⟩ := h.live_slot hlive
  have hvalid := h.live_valid hlive
  have hfile' : isDir (s.fs.entryAt loc) = false := by
    rw [← isDir_congr hcache.attributes]
    exact hfile
  have hmown : ∀ b ∈ m, b ∈ own loc := by
    rcases hcase with ⟨rfl, -⟩ | ⟨rfl, -⟩
    · intro b hb
      simp at hb
    · exact fun b hb => hb
  have hin : ∀ b ∈ m, b ≤ s.fs.header.lastCluster :=
    fun b hb => (h.owns loc hlive).inside (hmown b hb)
  have hdirs : ∀ d l, s.fs.DirAt d → s.fs.Owns d l → l.Disjoint m := by
    intro d l hd hl b hb hbm
    exact h.dir_file_apart hd hl hlive (fun hdir => by rw [hfile'] at hdir; cases hdir) hb
      (hmown b hbm)
  have hothers : ∀ x, s.fs.Live x → x ≠ loc → (own x).Disjoint m := by
    intro x hx hne b hb hbm
    exact h.apart x loc hx hlive hne hb (hmown b hbm)
  -- the rewritten entry is a child of the same kind
  have hce : childEntry ino'.ent = true := by
    simp only [Fat16.child, Bool.and_eq_true, Bool.not_eq_true'] at hchild
    simp only [childEntry, fat16EntryValid, fat16IsDot, Fat16Directory.first, hname, hext, hattr,
      hcache.name, hcache.extension, hcache.attributes] at hchild ⊢
    simp only [Bool.and_eq_true, Bool.not_eq_true']
    exact hchild
  have hfirst := childEntry_first hce
  have hdir : isDir ino'.ent = false := (isDir_congr hattr).trans hfile
  have hkeep := fun d l (hd : s.fs.DirAt d) (hl : s.fs.Owns d l) =>
    h.release_dir hd hl (hdirs d l hd hl) hin hp hfirst (.inr (.inl hvalid))
  have hlisted : ∀ e x, s.fs.DirAt e → s.fs.Lists e x → x ≠ loc →
      (s.fs.release m loc ino'.ent).entryAt x = s.fs.entryAt x := by
    intro e x he hx hne
    obtain ⟨l, hl⟩ := h.dir_owns he
    exact (hkeep e l he hl).2.2.1 x ((h.lists he hl).mp hx).1 hne
  have hlists : ∀ e, s.fs.DirAt e → ∀ x,
      (s.fs.release m loc ino'.ent).Lists e x ↔ s.fs.Lists e x := by
    intro e he x
    obtain ⟨l, hl⟩ := h.dir_owns he
    rw [(hkeep e l he hl).2.2.2 x]
    constructor
    · rintro (⟨-, hx⟩ | ⟨rfl, hmem, -⟩)
      · exact hx
      · exact (h.lists he hl).mpr ⟨hmem, hvalid⟩
    · intro hx
      by_cases hxl : x = loc
      · subst hxl
        exact .inr ⟨rfl, ((h.lists he hl).mp hx).1, childEntry_valid hce⟩
      · exact .inl ⟨hxl, hx⟩
  have hholds : ∀ e, s.fs.DirAt e → ∀ x,
      (s.fs.release m loc ino'.ent).Holds e x ↔ s.fs.Holds e x := by
    intro e he x
    obtain ⟨l, hl⟩ := h.dir_owns he
    rw [release_holds (Fat16.release_entryAt_self _ _ _ _) (fun y hy => hlisted e y he hy)
      (hkeep e l he hl).2.2.2 x]
    constructor
    · rintro (⟨-, hx⟩ | ⟨rfl, hmem, -⟩)
      · exact hx
      · exact (h.holds he hl).mpr ⟨hmem, hchild⟩
    · intro hx
      by_cases hxl : x = loc
      · subst hxl
        exact .inr ⟨rfl, ((h.holds he hl).mp hx).1, hce⟩
      · exact .inl ⟨hxl, hx⟩
  have hentry : ∀ x, s.fs.Live x → x ≠ loc →
      (s.fs.release m loc ino'.ent).entryAt x = s.fs.entryAt x := by
    rintro x ⟨e, he, hx⟩ hne
    exact hlisted e x he hx.1 hne
  obtain ⟨htree, hlives⟩ := tree_same hholds fun e x he hx => by
    by_cases hxl : x = loc
    · subst hxl
      rw [Fat16.release_entryAt_self, hdir, hfile']
      exact ⟨rfl, fun hf => by cases hf⟩
    · rw [hentry x ⟨e, he, hx⟩ hxl]
      exact ⟨rfl, fun _ => rfl⟩
  have hl'own : ∀ b ∈ l', b ∈ own loc := by
    rcases hcase with ⟨-, rfl, -⟩ | ⟨-, rfl, -⟩
    · exact fun b hb => hb
    · intro b hb
      simp at hb
  refine ⟨⟨Fat16.release_mounted h.mounted hin hp, ?_, ?_, ?_, ?_⟩,
    ⟨htree, hlists, hlisted, hlives, Fat16.release_entryAt_self _ _ _ _⟩⟩
  · intro x hx
    have hx' := (hlives x).mp hx
    by_cases hxl : x = loc
    · subst hxl
      simp only [Sys.head, Function.update_self]
      rcases hcase with ⟨rfl, rfl, hcl⟩ | ⟨-, rfl, hcl⟩
      · rw [hcl]
        apply Fat16.release_owns hs hin hp _ (List.disjoint_nil_right _)
        have := h.owns x hx'
        simpa only [Sys.head, hino] using this
      · exact .inl ⟨hcl, rfl⟩
    · have hhead : (⟨s.fs.release m loc ino'.ent,
          Function.update s.inodes loc (some ino')⟩ : Sys).head x = s.head x := by
        simp only [Sys.head, Function.update_of_ne hxl, hentry x hx' hxl]
      rw [hhead, Function.update_of_ne hxl]
      exact Fat16.release_owns hs hin hp (h.owns x hx') (hothers x hx' hxl)
  · intro x y hx hy hne
    have hx' := (hlives x).mp hx
    have hy' := (hlives y).mp hy
    by_cases hxl : x = loc
    · have hyl : y ≠ loc := fun hyl => hne (hxl.trans hyl.symm)
      rw [hxl, Function.update_self, Function.update_of_ne hyl]
      intro b hb hby
      exact h.apart loc y hlive hy' (Ne.symm hyl) (hl'own b hb) hby
    · rw [Function.update_of_ne hxl]
      by_cases hyl : y = loc
      · rw [hyl, Function.update_self]
        intro b hb hby
        exact h.apart x loc hx' hlive hxl hb (hl'own b hby)
      · rw [Function.update_of_ne hyl]
        exact h.apart x y hx' hy' hne
  · intro x i hi
    by_cases hxl : x = loc
    · subst hxl
      simp only [Function.update_self, Option.some.injEq] at hi
      subst hi
      refine ⟨(hlives x).mpr hlive, ?_⟩
      rw [Fat16.release_entryAt_self]
      exact ⟨hloc.trans hcache.loc, rfl, rfl, rfl, .inl rfl⟩
    · simp only [Function.update_of_ne hxl] at hi
      obtain ⟨hx, hc⟩ := h.cached x i hi
      refine ⟨(hlives x).mpr hx, ?_⟩
      rw [hentry x hx hxl]
      exact hc
  · intro e n he hn
    have he' := (htree e).mp he
    obtain ⟨l, hl⟩ := h.dir_owns he'
    obtain ⟨hl2, ht2, -, -⟩ := hkeep e l he' hl
    rw [hn.unique hl2, Fat16.release_header]
    exact ht2

/-- **A live entry is removed**, with its chain or, for a file the disk still calls empty, without. -/
theorem remove (h : Inv s own) (hlive : s.fs.Live loc)
    (hm : m = own loc ∨ (m = [] ∧ isDir (s.fs.entryAt loc) = false))
    (hempty : isDir (s.fs.entryAt loc) = true →
      ∀ x ∈ s.fs.header.dirSlots (s.fs.entryAt loc).cluster (own loc), s.fs.child x = false)
    (hfirst : ent.first ≠ FAT16_DIR_ENTRY_END) (hent : fat16EntryValid ent = false) :
    Inv ⟨s.fs.release m loc ent, Function.update s.inodes loc none⟩ own ∧
    Removed s.fs (s.fs.release m loc ent) loc := by
  have hs := h.mounted.sound
  obtain ⟨d₀, l₀, hd₀, hl₀, hmem₀, hchild, hp⟩ := h.live_slot hlive
  have hvalid := h.live_valid hlive
  have hhold₀ : s.fs.Holds d₀ loc := (h.holds hd₀ hl₀).mpr ⟨hmem₀, hchild⟩
  have hmown : ∀ b ∈ m, b ∈ own loc := by
    rcases hm with rfl | ⟨rfl, -⟩
    · exact fun b hb => hb
    · intro b hb
      simp at hb
  have hin : ∀ b ∈ m, b ≤ s.fs.header.lastCluster :=
    fun b hb => (h.owns loc hlive).inside (hmown b hb)
  -- the directory behind the slot holds nothing
  have hleaf : isDir (s.fs.entryAt loc) = true →
      ∀ x, ¬s.fs.Holds (s.fs.entryAt loc).cluster x := by
    intro hdir x hx
    have hown := h.owns loc hlive
    rw [h.head_dir hdir] at hown
    obtain ⟨hmem, hc⟩ := (h.holds (.sub hd₀ hhold₀ hdir) hown).mp hx
    rw [hempty hdir x hmem] at hc
    cases hc
  have hne0 : isDir (s.fs.entryAt loc) = true → (s.fs.entryAt loc).cluster ≠ 0 := by
    intro hdir hzero
    have hroot := hleaf hdir
    rw [hzero] at hroot
    have hd := hd₀.eq_zero hroot
    rw [hd] at hhold₀
    exact hroot loc hhold₀
  have hkeep := fun d l (hd : s.fs.DirAt d)
      (hne : isDir (s.fs.entryAt loc) = true → d ≠ (s.fs.entryAt loc).cluster)
      (hl : s.fs.Owns d l) =>
    h.release_dir (m := m) hd hl
      (fun b hb hbm => h.dir_file_apart hd hl hlive (fun hdir => Ne.symm (hne hdir)) hb
        (hmown b hbm)) hin hp hfirst (.inr (.inl hvalid))
  have hlisted : ∀ e x, s.fs.DirAt e → s.fs.Lists e x → x ≠ loc →
      (s.fs.release m loc ent).entryAt x = s.fs.entryAt x := by
    intro e x he hx hne
    obtain ⟨l, hl⟩ := h.dir_owns he
    exact Fat16.release_entryAt_ne hs hin hp (hl.proper hs ((h.lists he hl).mp hx).1) hne
  have hlists : ∀ e, (s.fs.DirAt e ∧
      (isDir (s.fs.entryAt loc) = true → e ≠ (s.fs.entryAt loc).cluster)) → ∀ x,
      (s.fs.release m loc ent).Lists e x ↔ x ≠ loc ∧ s.fs.Lists e x := by
    intro e ⟨he, hne⟩ x
    obtain ⟨l, hl⟩ := h.dir_owns he
    rw [(hkeep e l he hne hl).2.2.2 x, hent]
    simp
  have hholds : ∀ e, (s.fs.DirAt e ∧
      (isDir (s.fs.entryAt loc) = true → e ≠ (s.fs.entryAt loc).cluster)) → ∀ x,
      (s.fs.release m loc ent).Holds e x ↔ x ≠ loc ∧ s.fs.Holds e x := by
    intro e ⟨he, hne⟩ x
    obtain ⟨l, hl⟩ := h.dir_owns he
    rw [release_holds (Fat16.release_entryAt_self _ _ _ _) (fun y hy => hlisted e y he hy)
      (hkeep e l he hne hl).2.2.2 x]
    simp [childEntry, hent]
  have hentry : ∀ x, s.fs.Live x → x ≠ loc →
      (s.fs.release m loc ent).entryAt x = s.fs.entryAt x :=
    fun x ⟨e, he, hx⟩ hne => hlisted e x he hx.1 hne
  have hP₀ : s.fs.DirAt d₀ ∧
      (isDir (s.fs.entryAt loc) = true → d₀ ≠ (s.fs.entryAt loc).cluster) := by
    refine ⟨hd₀, fun hdir heq => ?_⟩
    rw [heq] at hhold₀
    exact hleaf hdir loc hhold₀
  obtain ⟨htree, hlives, hsub⟩ := tree_leaf
    (P := fun e => s.fs.DirAt e ∧
      (isDir (s.fs.entryAt loc) = true → e ≠ (s.fs.entryAt loc).cluster))
    ⟨.root, fun hdir => Ne.symm (hne0 hdir)⟩
    (by
      intro e x he hx hdir
      obtain ⟨hne, hx'⟩ := (hholds e he x).mp hx
      rw [hentry x ⟨e, he.1, hx'⟩ hne] at hdir ⊢
      refine ⟨.sub he.1 hx' hdir, fun hdir₀ heq => ?_⟩
      -- two entries for one directory would share its chain
      have ho := h.owns x ⟨e, he.1, hx'⟩
      have ho₀ := h.owns loc hlive
      rw [h.head_dir hdir, heq] at ho
      rw [h.head_dir hdir₀] at ho₀
      have hdisj := h.apart x loc ⟨e, he.1, hx'⟩ hlive hne
      rw [ho.unique ho₀] at hdisj
      rcases ho₀ with ⟨hz, -⟩ | hheads
      · exact hne0 hdir₀ hz
      · exact hdisj hheads.head_mem hheads.head_mem)
    (by
      intro e he x
      rw [hholds e he x]
      constructor
      · intro hx
        by_cases hxl : x = loc
        · subst hxl
          right
          refine ⟨?_, rfl⟩
          by_contra hne
          obtain ⟨l, hl⟩ := h.dir_owns he.1
          exact h.slots_apart he.1 hd₀ hne hl hl₀ ((h.holds he.1 hl).mp hx).1 hmem₀
        · exact .inl ⟨hxl, hx⟩
      · rintro (⟨-, hx⟩ | ⟨rfl, rfl⟩)
        · exact hx
        · exact hhold₀)
    (by
      intro e x he hx
      obtain ⟨hne, hx'⟩ := (hholds e he x).mp hx
      exact (hentry x ⟨e, he.1, hx'⟩ hne).symm)
    hP₀ (.inl hd₀) hleaf
  have hnotlive : ¬(s.fs.release m loc ent).Live loc := by
    intro ⟨e, he, hx⟩
    exact ((hholds e (hsub e he) loc).mp hx).1 rfl
  have hlives' : ∀ x, (s.fs.release m loc ent).Live x ↔ s.fs.Live x ∧ x ≠ loc := by
    intro x
    constructor
    · intro hx
      refine ⟨(hlives x).mpr (.inl hx), fun hxl => hnotlive (hxl ▸ hx)⟩
    · intro ⟨hx, hne⟩
      rcases (hlives x).mp hx with hx | hxl
      · exact hx
      · exact absurd hxl hne
  refine ⟨⟨Fat16.release_mounted h.mounted hin hp, ?_, ?_, ?_, ?_⟩,
    ⟨?_, fun e he x => hlists e (hsub e he) x, hlisted, hlives'⟩⟩
  · intro x hx
    obtain ⟨hx', hne⟩ := (hlives' x).mp hx
    have hhead : (⟨s.fs.release m loc ent, Function.update s.inodes loc none⟩ : Sys).head x =
        s.head x := by
      simp only [Sys.head, Function.update_of_ne hne, hentry x hx' hne]
    rw [hhead]
    exact Fat16.release_owns hs hin hp (h.owns x hx')
      fun b hb hbm => h.apart x loc hx' hlive hne hb (hmown b hbm)
  · intro x y hx hy hne
    exact h.apart x y ((hlives' x).mp hx).1 ((hlives' y).mp hy).1 hne
  · intro x i hi
    by_cases hxl : x = loc
    · subst hxl
      simp at hi
    · simp only [Function.update_of_ne hxl] at hi
      obtain ⟨hx, hc⟩ := h.cached x i hi
      refine ⟨(hlives' x).mpr ⟨hx, hxl⟩, ?_⟩
      rw [hentry x hx hxl]
      exact hc
  · intro e n he hn
    obtain ⟨he', hne⟩ := hsub e he
    obtain ⟨l, hl⟩ := h.dir_owns he'
    obtain ⟨hl2, ht2, -, -⟩ := hkeep e l he' hne hl
    rw [hn.unique hl2, Fat16.release_header]
    exact ht2
  · intro e
    constructor
    · exact hsub e
    · intro ⟨he, hne⟩
      rcases (htree e).mp he with he | ⟨hdir, heq⟩
      · exact he
      · exact absurd heq (hne hdir)

/-- **A slot is filled with an entry the loops skip**: a fresh entry whose name has an unprintable byte. -/
theorem fill (h : Inv s own) (hd : s.fs.DirAt d) (hl : s.fs.Owns d l)
    (hfind : (s.fs.header.dirSlots d l).find? s.fs.reusable = some loc)
    (hfirst : ent.first ≠ FAT16_DIR_ENTRY_END) (hent : fat16EntryValid ent = false) :
    Inv ⟨s.fs.setEntry loc ent, s.inodes⟩ own ∧ SameTree s.fs (s.fs.setEntry loc ent) := by
  have hs := h.mounted.sound
  have hmem : loc ∈ s.fs.header.dirSlots d l := List.mem_of_find?_eq_some hfind
  have hp := hl.proper hs hmem
  have hinvalid := reusable_invalid (List.find?_some hfind)
  have hself : (s.fs.setEntry loc ent).entryAt loc = ent := Fat16.setEntry_entryAt_self _ _ _
  have hsame : SameTree s.fs (s.fs.setEntry loc ent) := by
    apply h.sameTree
    intro e n he hn
    have hslot : (s.fs.header.dirSlots e n).find? s.fs.reusable = some loc ∨
        fat16EntryValid (s.fs.entryAt loc) = true ∨ loc ∉ s.fs.header.dirSlots e n := by
      by_cases hed : e = d
      · subst hed
        rw [hn.unique hl]
        exact .inl hfind
      · exact .inr (.inr fun hx => h.slots_apart he hd hed hn hl hx hmem)
    obtain ⟨hown, htidy, hkeep, -⟩ := h.release_dir (m := []) he hn (List.disjoint_nil_right n)
      (by simp) hp hfirst hslot
    refine ⟨fun x hx hv => ?_, n, hown, htidy, fun x => ?_⟩
    · apply hkeep x hx
      rintro rfl
      rw [hinvalid] at hv
      cases hv
    · show x ∈ s.fs.header.dirSlots e n ∧ _ ↔ _
      by_cases hxl : x = loc
      · subst hxl
        rw [hself, hinvalid, hent]
      · constructor
        · intro ⟨hx, hv⟩
          exact ⟨hx, by rw [← hkeep x hx hxl]; exact hv⟩
        · intro ⟨hx, hv⟩
          refine ⟨hx, ?_⟩
          have hkx : (s.fs.setEntry loc ent).entryAt x = s.fs.entryAt x := hkeep x hx hxl
          rw [hkx]
          exact hv
  refine ⟨h.of_sameTree hsame (Fat16.setEntry_mounted h.mounted hp ent) fun x hx => ?_, hsame⟩
  exact (h.owns x hx).congr rfl fun b hb => Fat16.setEntry_fatAt hs hp ent ((h.owns x hx).inside hb)

/-- **An entry is added** in the first reusable slot of a directory: a file without clusters, or an empty
directory on the chain `m` that belongs to nobody. -/
theorem add (h : Inv s own) (hd : s.fs.DirAt d) (hl : s.fs.Owns d l)
    (hfind : (s.fs.header.dirSlots d l).find? s.fs.reusable = some loc)
    (hent : childEntry ent = true) (hm : s.fs.Owns ent.cluster m)
    (hdisj : ∀ x, s.fs.Live x → (own x).Disjoint m)
    (hnew : isDir ent = true → ent.cluster ≠ 0 ∧ s.fs.Tidy (s.fs.header.dirSlots ent.cluster m) ∧
      ∀ x ∈ s.fs.header.dirSlots ent.cluster m, s.fs.child x = false) :
    Inv ⟨s.fs.setEntry loc ent, Function.update s.inodes loc (some (Inode.ofEntry ent loc))⟩
      (Function.update own loc m) ∧
    Added s.fs (s.fs.setEntry loc ent) d loc ent := by
  have hs := h.mounted.sound
  have hmem : loc ∈ s.fs.header.dirSlots d l := List.mem_of_find?_eq_some hfind
  have hp := hl.proper hs hmem
  have hfirst := childEntry_first hent
  have hself : (s.fs.setEntry loc ent).entryAt loc = ent := Fat16.setEntry_entryAt_self _ _ _
  have hnot : ∀ e, ¬s.fs.Lists e loc := by
    intro e ⟨n, _, hx⟩
    have hv := (mem_of_mem_live hx).2
    rw [reusable_invalid (List.find?_some hfind)] at hv
    cases hv
  have hkeep := fun e n (he : s.fs.DirAt e) (hn : s.fs.Owns e n) =>
    h.release_dir (m := []) he hn (List.disjoint_nil_right n) (by simp) hp hfirst
      (by
        by_cases hed : e = d
        · subst hed
          rw [hn.unique hl]
          exact .inl hfind
        · exact .inr (.inr fun hx => h.slots_apart he hd hed hn hl hx hmem))
  have hentry : ∀ x, x.Proper s.fs.header → x ≠ loc →
      (s.fs.setEntry loc ent).entryAt x = s.fs.entryAt x :=
    fun x hx hne => Fat16.setEntry_entryAt_ne hp hx hne ent
  have hlproper : ∀ x, s.fs.Live x → x.Proper s.fs.header ∧ x ≠ loc := by
    intro x hx
    obtain ⟨-, -, -, -, -, -, hpx⟩ := h.live_slot hx
    refine ⟨hpx, fun hxl => ?_⟩
    obtain ⟨e, -, he⟩ := hx
    exact hnot e (hxl ▸ he.1)
  -- the chain of the new directory and its slots
  have hlm : l.Disjoint m := by
    by_cases hd0 : d = 0
    · rw [hd0] at hl
      rw [owns_zero hl]
      exact List.disjoint_nil_left m
    · obtain ⟨owner, hlive, -, -, hown⟩ := h.dir_owner hd hd0
      rw [hl.unique hown]
      exact hdisj owner hlive
  have hmowns : (s.fs.setEntry loc ent).Owns ent.cluster m :=
    hm.congr rfl fun x hx => Fat16.setEntry_fatAt hs hp ent (hm.inside hx)
  have hnewslots : isDir ent = true → ∀ x ∈ s.fs.header.dirSlots ent.cluster m,
      (s.fs.setEntry loc ent).entryAt x = s.fs.entryAt x := by
    intro hdir x hx
    obtain ⟨hc0, -, -⟩ := hnew hdir
    apply hentry x (hm.proper hs hx)
    rintro rfl
    have hne : d ≠ ent.cluster := by
      rintro rfl
      rw [hl.unique hm] at hlm
      rcases hm with ⟨hz, -⟩ | hheads
      · exact hc0 hz
      · exact hlm hheads.head_mem hheads.head_mem
    exact dirSlots_ne hs (fun _ hy => hl.min_le hy) (fun _ hy => hm.min_le hy) hne hlm hmem hx rfl
  have hnewtidy : isDir ent = true →
      (s.fs.setEntry loc ent).Tidy (s.fs.header.dirSlots ent.cluster m) :=
    fun hdir => (hnew hdir).2.1.congr (hnewslots hdir)
  have hleaf : isDir ((s.fs.setEntry loc ent).entryAt loc) = true →
      ∀ x, ¬(s.fs.setEntry loc ent).Holds ((s.fs.setEntry loc ent).entryAt loc).cluster x := by
    rw [hself]
    intro hdir x hx
    obtain ⟨hmemx, hcx⟩ := (holds_iff hmowns (hnewtidy hdir)).mp hx
    rw [child_congr (hnewslots hdir x hmemx), (hnew hdir).2.2 x hmemx] at hcx
    cases hcx
  have hlisted : ∀ e x, s.fs.DirAt e → s.fs.Lists e x →
      (s.fs.setEntry loc ent).entryAt x = s.fs.entryAt x := by
    intro e x he hx
    obtain ⟨n, hn⟩ := h.dir_owns he
    exact (hkeep e n he hn).2.2.1 x ((h.lists he hn).mp hx).1 fun hxl => hnot e (hxl ▸ hx)
  have hslot : ∀ e n, s.fs.DirAt e → s.fs.Owns e n → loc ∈ s.fs.header.dirSlots e n → e = d := by
    intro e n he hn hx
    by_contra hne
    exact h.slots_apart he hd hne hn hl hx hmem
  have hlists : ∀ e, s.fs.DirAt e → ∀ x,
      (s.fs.setEntry loc ent).Lists e x ↔ s.fs.Lists e x ∨ (e = d ∧ x = loc) := by
    intro e he x
    obtain ⟨n, hn⟩ := h.dir_owns he
    rw [show s.fs.setEntry loc ent = s.fs.release [] loc ent from rfl, (hkeep e n he hn).2.2.2 x]
    constructor
    · rintro (⟨-, hx⟩ | ⟨rfl, hx, -⟩)
      · exact .inl hx
      · exact .inr ⟨hslot e n he hn hx, rfl⟩
    · rintro (hx | ⟨rfl, rfl⟩)
      · exact .inl ⟨fun hxl => hnot e (hxl ▸ hx), hx⟩
      · rw [hn.unique hl]
        exact .inr ⟨rfl, hmem, childEntry_valid hent⟩
  have hholds : ∀ e, s.fs.DirAt e → ∀ x,
      (s.fs.setEntry loc ent).Holds e x ↔ s.fs.Holds e x ∨ (e = d ∧ x = loc) := by
    intro e he x
    obtain ⟨n, hn⟩ := h.dir_owns he
    have hiff := release_holds hself (fun y hy _ => hlisted e y he hy) (hkeep e n he hn).2.2.2 x
    rw [hiff]
    constructor
    · rintro (⟨-, hx⟩ | ⟨rfl, hx, -⟩)
      · exact .inl hx
      · exact .inr ⟨hslot e n he hn hx, rfl⟩
    · rintro (hx | ⟨rfl, rfl⟩)
      · exact .inl ⟨fun hxl => hnot e (hxl ▸ hx.1), hx⟩
      · rw [hn.unique hl]
        exact .inr ⟨rfl, hmem, hent⟩
  obtain ⟨htree, hlives, -⟩ := tree_leaf
    (P := s.fs.DirAt) .root (fun e x he hx hdir => .sub he hx hdir) hholds
    (fun e x he hx => by
      obtain ⟨hpx, hne⟩ := hlproper x ⟨e, he, hx⟩
      exact hentry x hpx hne) hd (.inr hd) hleaf
  rw [hself] at htree
  have hcached : ∀ x, s.fs.Live x → (s.fs.setEntry loc ent).entryAt x = s.fs.entryAt x :=
    fun x hx => hentry x (hlproper x hx).1 (hlproper x hx).2
  have hofEntry : (Inode.ofEntry ent loc).ent = ent := rfl
  refine ⟨⟨Fat16.setEntry_mounted h.mounted hp ent, ?_, ?_, ?_, ?_⟩,
    ⟨fun e _ => hnot e, htree, hlists, hlisted, hlives, hself⟩⟩
  · intro x hx
    by_cases hxl : x = loc
    · subst hxl
      simp only [Sys.head, Function.update_self, hofEntry]
      exact hmowns
    · have hx' : s.fs.Live x := by
        rcases (hlives x).mp hx with hx | hx
        · exact hx
        · exact absurd hx hxl
      have hhead : (⟨s.fs.setEntry loc ent,
          Function.update s.inodes loc (some (Inode.ofEntry ent loc))⟩ : Sys).head x = s.head x := by
        simp only [Sys.head, Function.update_of_ne hxl, hcached x hx']
      rw [hhead, Function.update_of_ne hxl]
      exact (h.owns x hx').congr rfl
        fun b hb => Fat16.setEntry_fatAt hs hp ent ((h.owns x hx').inside hb)
  · intro x y hx hy hne
    have hcases : ∀ z, (s.fs.setEntry loc ent).Live z → z ≠ loc → s.fs.Live z := by
      intro z hz hzl
      rcases (hlives z).mp hz with hz | hz
      · exact hz
      · exact absurd hz hzl
    by_cases hxl : x = loc
    · have hyl : y ≠ loc := fun hyl => hne (hxl.trans hyl.symm)
      rw [hxl, Function.update_self, Function.update_of_ne hyl]
      exact List.disjoint_symm (hdisj y (hcases y hy hyl))
    · rw [Function.update_of_ne hxl]
      by_cases hyl : y = loc
      · rw [hyl, Function.update_self]
        exact hdisj x (hcases x hx hxl)
      · rw [Function.update_of_ne hyl]
        exact h.apart x y (hcases x hx hxl) (hcases y hy hyl) hne
  · intro x i hi
    by_cases hxl : x = loc
    · subst hxl
      simp only [Function.update_self, Option.some.injEq] at hi
      subst hi
      refine ⟨(hlives x).mpr (.inr rfl), ?_⟩
      rw [hself]
      exact ⟨rfl, rfl, rfl, rfl, .inl rfl⟩
    · simp only [Function.update_of_ne hxl] at hi
      obtain ⟨hx, hc⟩ := h.cached x i hi
      refine ⟨(hlives x).mpr (.inl hx), ?_⟩
      rw [hcached x hx]
      exact hc
  · intro e n he hn
    rcases (htree e).mp he with he' | ⟨hdir, rfl⟩
    · obtain ⟨n', hn'⟩ := h.dir_owns he'
      obtain ⟨hn2, ht2, -, -⟩ := hkeep e n' he' hn'
      rw [hn.unique hn2]
      exact ht2
    · rw [hn.unique hmowns]
      exact hnewtidy hdir

/-! ### What a slot change leaks -/

theorem leaked_add {inodes : DirLoc → Option Inode} {b : ℕ} (hs : s.fs.header.Sound)
    (hp : loc.Proper s.fs.header) (ha : Added s.fs (s.fs.setEntry loc ent) d loc ent)
    (hb : (⟨s.fs.setEntry loc ent, inodes⟩ : Sys).Leaked (Function.update own loc m) b) :
    s.Leaked own b ∧ b ∉ m := by
  obtain ⟨h1, h2, h3, h4, h5⟩ := hb
  have h2' : b ≤ s.fs.header.lastCluster := h2
  have hfat : (s.fs.setEntry loc ent).fatAt b = s.fs.fatAt b := Fat16.setEntry_fatAt hs hp ent h2'
  refine ⟨⟨h1, h2', fun h => h3 (hfat.trans h), fun h => h4 (hfat.trans h), fun y hy => ?_⟩, ?_⟩
  · have hyl : y ≠ loc := fun hyl => ha.not_live (hyl ▸ hy)
    have := h5 y ((ha.live y).mpr (.inl hy))
    rwa [Function.update_of_ne hyl] at this
  · have := h5 loc ((ha.live loc).mpr (.inr rfl))
    rwa [Function.update_self] at this

theorem leaked_rewrite {inodes : DirLoc → Option Inode} {b : ℕ} {l' : List ℕ}
    (hs : s.fs.header.Sound) (hp : loc.Proper s.fs.header)
    (hin : ∀ x ∈ m, x ≤ s.fs.header.lastCluster) (hlive : s.fs.Live loc)
    (hr : Rewritten s.fs (s.fs.release m loc ent) loc ent)
    (hcase : (m = [] ∧ l' = own loc) ∨ (m = own loc ∧ l' = []))
    (hb : (⟨s.fs.release m loc ent, inodes⟩ : Sys).Leaked (Function.update own loc l') b) :
    s.Leaked own b := by
  obtain ⟨h1, h2, h3, h4, h5⟩ := hb
  rw [Fat16.release_header] at h2
  simp only [Fat16.release_fatAt hs hin hp h2] at h3 h4
  have hbm : b ∉ m := by
    intro hbm
    rw [if_pos hbm] at h3
    exact h3 rfl
  rw [if_neg hbm] at h3 h4
  refine ⟨h1, h2, h3, h4, fun y hy => ?_⟩
  have hy5 := h5 y ((hr.live y).mpr hy)
  by_cases hyl : y = loc
  · subst hyl
    rw [Function.update_self] at hy5
    rcases hcase with ⟨-, rfl⟩ | ⟨rfl, -⟩
    · exact hy5
    · exact hbm
  · rwa [Function.update_of_ne hyl] at hy5

theorem leaked_remove {inodes : DirLoc → Option Inode} {b : ℕ} (hs : s.fs.header.Sound)
    (hp : loc.Proper s.fs.header) (hin : ∀ x ∈ m, x ≤ s.fs.header.lastCluster)
    (hr : Removed s.fs (s.fs.release m loc ent) loc)
    (hb : (⟨s.fs.release m loc ent, inodes⟩ : Sys).Leaked own b) :
    b ∉ m ∧ (s.Leaked own b ∨ b ∈ own loc) := by
  obtain ⟨h1, h2, h3, h4, h5⟩ := hb
  rw [Fat16.release_header] at h2
  simp only [Fat16.release_fatAt hs hin hp h2] at h3 h4
  have hbm : b ∉ m := by
    intro hbm
    rw [if_pos hbm] at h3
    exact h3 rfl
  rw [if_neg hbm] at h3 h4
  refine ⟨hbm, ?_⟩
  by_cases hbl : b ∈ own loc
  · exact .inr hbl
  · left
    refine ⟨h1, h2, h3, h4, fun y hy => ?_⟩
    by_cases hyl : y = loc
    · rw [hyl]
      exact hbl
    · exact h5 y ((hr.live y).mpr ⟨hy, hyl⟩)

/-! ### A slot is handed out -/

/-- The directory grew if it had to, and the slot is its first reusable one. -/
theorem slotFor {fs' : Fat16} (h : Inv s own) (hd : s.fs.DirAt d) (hl : s.fs.Owns d l)
    (hslot : s.fs.SlotFor d l loc fs') :
    ∃ own' l', Inv ⟨fs', s.inodes⟩ own' ∧ SameTree s.fs fs' ∧ fs'.Owns d l' ∧
      (fs'.header.dirSlots d l').find? fs'.reusable = some loc ∧
      (∀ y, ∀ b ∈ own' y, b ∈ own y ∨ s.fs.fatAt b = FAT16_FREE_CLUSTER) ∧
      (∀ e n, s.fs.Owns e n → n.Disjoint l →
        fs'.Owns e n ∧ ∀ x ∈ s.fs.header.dirSlots e n, fs'.entryAt x = s.fs.entryAt x) ∧
      ∀ b, (⟨fs', s.inodes⟩ : Sys).Leaked own' b → s.Leaked own b := by
  rcases hslot with ⟨hfind, rfl⟩ | ⟨hfind, hd0, x, a, hx, hmin, ha, hfree, rfl, rfl⟩
  · exact ⟨own, l, h, .refl h.tidy, hl, hfind, fun y b hb => .inl hb,
      fun e n hn _ => ⟨hn, fun _ _ => rfl⟩, fun b hb => hb⟩
  · have hs := h.mounted.sound
    have hheads : s.fs.Heads d l := by
      rcases hl with ⟨hz, -⟩ | hheads
      · exact absurd hz hd0
      · exact hheads
    obtain ⟨⟨owner, hlive, hol, hinv⟩, hsame⟩ := h.growDir hd hheads hx hmin ha hfree
    have hext := Fat16.Extends.of_grow h.mounted hheads hx hmin ha hfree
    refine ⟨_, l ++ [a], hinv, hsame, .inr hext.heads, ?_, ?_, ?_, ?_⟩
    · -- the old slots are all taken, the first slot of the new cluster is free
      have hal : a ∉ l := fun hmem => hheads.ne_free hmem hfree
      rw [Fat16.grow_header, dirSlots_append hd0, List.find?_append]
      have hold : (s.fs.header.dirSlots d l).find? (s.fs.grow x a).reusable = none := by
        rw [List.find?_eq_none] at hfind ⊢
        intro y hy
        have hent := Fat16.grow_entryAt_other hs (hheads.inside (List.mem_of_getLast? hx)) hmin ha
          (fun _ hz => hheads.min_le hz) hal hy
        have hfb : (s.fs.grow x a).firstByte y = s.fs.firstByte y := by
          rw [← Fat16.entryAt_first, hent, Fat16.entryAt_first]
        simp only [Fat16.reusable, hfb]
        exact hfind y hy
      obtain ⟨rest, hslots, -⟩ := clusterSlots_cons hs a
      have hzero : (s.fs.grow x a).entryAt ⟨s.fs.header.clusterToLba a, 0⟩ =
          Fat16Directory.zero := Fat16.grow_entryAt hs (by rw [hslots]; simp)
      have hre : (s.fs.grow x a).reusable ⟨s.fs.header.clusterToLba a, 0⟩ = true := by
        simp only [Fat16.reusable, ← Fat16.entryAt_first, hzero]
        decide
      rw [hold, Option.none_or, List.flatMap_singleton, hslots, List.find?_cons, hre]
    · intro y b hb
      by_cases hyo : y = owner
      · rw [hyo, Function.update_self, List.mem_append, List.mem_singleton] at hb
        rw [hyo, hol]
        rcases hb with hb | rfl
        · exact .inl hb
        · exact .inr hfree
      · rw [Function.update_of_ne hyo] at hb
        exact .inl hb
    · intro e n hn hdisj
      exact (hext.other hs hn hdisj).2
    · intro b hb
      rw [← hol] at hext hb
      exact leaked_extend hlive hext hsame hb

/-- **An entry is entered** into the slot handed out: a file without clusters, or an empty directory on the chain
`m`, which belongs to nobody. -/
theorem enter {fs' : Fat16} (h : Inv s own) (hd : s.fs.DirAt d) (hl : s.fs.Owns d l)
    (hslot : s.fs.SlotFor d l loc fs') (hent : childEntry ent = true)
    (hm : s.fs.Owns ent.cluster m) (hml : m.Disjoint l)
    (hdisj : ∀ x, s.fs.Live x → (own x).Disjoint m)
    (hnew : isDir ent = true → ent.cluster ≠ 0 ∧ s.fs.Tidy (s.fs.header.dirSlots ent.cluster m) ∧
      ∀ x ∈ s.fs.header.dirSlots ent.cluster m, s.fs.child x = false) :
    ∃ own', Inv ⟨fs'.setEntry loc ent, Function.update s.inodes loc (some (Inode.ofEntry ent loc))⟩ own' ∧
      Added s.fs (fs'.setEntry loc ent) d loc ent ∧
      (∀ x, (fs'.setEntry loc ent).Lists ent.cluster x → isDir ent = true →
        x ∈ s.fs.header.dirSlots ent.cluster m ∧
          (fs'.setEntry loc ent).entryAt x = s.fs.entryAt x) ∧
      ∀ b, (⟨fs'.setEntry loc ent,
        Function.update s.inodes loc (some (Inode.ofEntry ent loc))⟩ : Sys).Leaked own' b →
        s.Leaked own b ∧ b ∉ m := by
  obtain ⟨own', l', hinv, htree, hl', hfind, hown', hkept, hleak⟩ := h.slotFor hd hl hslot
  have hs := hinv.mounted.sound
  have hd' := (htree.dirAt d).mpr hd
  obtain ⟨hm', hment⟩ := hkept ent.cluster m hm hml
  have hdisj' : ∀ x, fs'.Live x → (own' x).Disjoint m := by
    intro x hx b hb hbm
    rcases hown' x b hb with hb | hb
    · exact hdisj x ((htree.live x).mp hx) hb hbm
    · exact hm.ne_free hbm hb
  have hnew' : isDir ent = true → ent.cluster ≠ 0 ∧
      fs'.Tidy (fs'.header.dirSlots ent.cluster m) ∧
      ∀ x ∈ fs'.header.dirSlots ent.cluster m, fs'.child x = false := by
    intro hdir
    obtain ⟨hne, htidy, hchild⟩ := hnew hdir
    rw [hslot.header]
    exact ⟨hne, htidy.congr hment, fun x hx => (child_congr (hment x hx)).trans (hchild x hx)⟩
  obtain ⟨hadd, htree'⟩ := hinv.add hd' hl' hfind hent hm' hdisj' hnew'
  have hmem := List.mem_of_find?_eq_some hfind
  have hp : loc.Proper fs'.header := hl'.proper hs hmem
  refine ⟨_, hadd, .of_sameTree htree htree', ?_, fun b hb => ?_⟩
  · intro x hx hdir
    have hdirAt : (fs'.setEntry loc ent).DirAt ent.cluster := (htree'.dirAt _).mpr (.inr ⟨hdir, rfl⟩)
    have hm2 : (fs'.setEntry loc ent).Owns ent.cluster m :=
      hm'.congr rfl fun b hb => Fat16.setEntry_fatAt hs hp ent (hm'.inside hb)
    obtain ⟨hxm, -⟩ := (hadd.lists hdirAt hm2).mp hx
    have hxm' : x ∈ s.fs.header.dirSlots ent.cluster m := by
      rw [← hslot.header]
      exact hxm
    refine ⟨hxm', ?_⟩
    have hxl : x ≠ loc := by
      rintro rfl
      have hdl : (fs'.setEntry x ent).Owns d l' :=
        hl'.congr rfl fun b hb => Fat16.setEntry_fatAt hs hp ent (hl'.inside hb)
      have hdd : (fs'.setEntry x ent).DirAt d := (htree'.dirAt _).mpr (.inl hd')
      have hne : d ≠ ent.cluster := by
        intro heq
        -- the parent directory is in use, the new one is not
        rw [heq] at hl
        obtain ⟨hc0, -, -⟩ := hnew hdir
        rcases hm with ⟨hz, -⟩ | hheads
        · exact hc0 hz
        · exact hml hheads.head_mem (by rw [hl.unique (.inr hheads)]; exact hheads.head_mem)
      exact hadd.slots_apart hdd hdirAt hne hdl hm2 hmem hxm
    rw [Fat16.setEntry_entryAt_ne hp (hm'.proper hs hxm) hxl, hment x hxm']
  · obtain ⟨hb, hbm⟩ := leaked_add (s := ⟨fs', s.inodes⟩) hs hp htree' hb
    exact ⟨hleak b hb, hbm⟩

/-- **An entry the loops skip** goes into the slot handed out. -/
theorem enterSkipped {fs' : Fat16} (h : Inv s own) (hd : s.fs.DirAt d) (hl : s.fs.Owns d l)
    (hslot : s.fs.SlotFor d l loc fs') (hfirst : ent.first ≠ FAT16_DIR_ENTRY_END)
    (hent : fat16EntryValid ent = false) :
    ∃ own', Inv ⟨fs'.setEntry loc ent, s.inodes⟩ own' ∧ SameTree s.fs (fs'.setEntry loc ent) := by
  obtain ⟨own', l', hinv, htree, hl', hfind, -, -, -⟩ := h.slotFor hd hl hslot
  obtain ⟨hfill, htree'⟩ := hinv.fill ((htree.dirAt d).mpr hd) hl' hfind hfirst hent
  exact ⟨own', hfill, htree.trans htree'⟩

end Inv

end LizardOs.Fat
