import LizardOs.Lib.Steps
import LizardOs.Vfs.Walks

/-!
# Reference counts of dentries

The calls of the virtual file system, each of which ends with nothing held, and the runs that are made of them: between
calls a dentry has one reference for being linked (or the root) and one for each open file on it.
-/

namespace LizardOs.Vfs

open LizardOs.Lib

variable {φ ι : Type} {ops : FsOps φ ι}

namespace VfsState

/-! ### The calls -/

section

variable {s s' : VfsState φ ι} {held : List ℕ} {d p : ℕ} {path : Name}

/-- The root is always there. -/
theorem Balanced.rootAlive (h : Balanced s held) : ∃ x, s.dentries s.root = some x := by
  rw [h.allocated_iff, cacheRef, if_pos (.inl rfl)]
  omega

theorem getRoot_childOf (s : VfsState φ ι) (q : ℕ) (m : Name) : (s.dentryGet s.root).childOf q m = s.childOf q m :=
  childOf_of_same (dentryGet_linked s s.root) (fun c _ => dentryGet_key s s.root c) q m

/-- The state of the file system is no reference. -/
theorem Balanced.withFs (h : Balanced s held) (fs : φ) : Balanced { s with fs := fs } held :=
  ⟨h.count, h.alive, h.fresh, h.parents, h.nodup, h.root⟩

theorem mem_components {c : Name} (h : c ∈ components path) : c ≠ [] := by
  have hkeep := (List.mem_filter.mp h).2
  intro hnil
  rw [hnil] at hkeep
  cases hkeep

theorem pieces_nil (n : ℕ) : pieces n [] = [] := by
  cases n with
  | zero => rfl
  | succ n => rw [pieces, if_pos rfl]

theorem pieces_length (n : ℕ) (c : Name) : ∀ m ∈ pieces n c, m.length < NAME_MAX := by
  induction n generalizing c with
  | zero =>
    intro m hm
    cases hm
  | succ n ih =>
    intro m hm
    rw [pieces] at hm
    split at hm
    · cases hm
    · rcases List.mem_cons.mp hm with rfl | hm
      · have hle := List.length_take_le (NAME_MAX - 1) c
        rw [NAME_MAX] at *
        omega
      · exact ih _ m hm

/-- The names of a path fit. -/
theorem pathNames_length : ∀ n ∈ pathNames path, n.length < NAME_MAX := by
  intro n hn
  obtain ⟨c, -, hn⟩ := List.mem_flatMap.mp hn
  exact pieces_length _ c n hn

/-- A name that fits is not cut. -/
theorem pieces_of_fits {c : Name} (hne : c ≠ []) (hlen : c.length < NAME_MAX) : pieces c.length c = [c] := by
  have hshort : c.length ≤ NAME_MAX - 1 := by
    rw [NAME_MAX] at *
    omega
  cases hn : c.length with
  | zero => exact absurd (List.length_eq_zero_iff.mp hn) hne
  | succ n => rw [pieces, if_neg hne, List.take_of_length_le hshort, List.drop_of_length_le hshort, pieces_nil]

/-- A path of names that fit is not cut. -/
theorem pathNames_eq (h : ∀ c ∈ components path, c.length < NAME_MAX) : pathNames path = components path := by
  have hone : ∀ c ∈ components path, pieces c.length c = [c] := fun c hc => pieces_of_fits (mem_components hc) (h c hc)
  rw [pathNames, List.flatMap_congr hone, List.flatMap_singleton']

/-- **`vfs_path_lookup`**. -/
theorem vfsPathLookup_some (h : Balanced s held) (hr : s.vfsPathLookup ops path = (some d, s')) :
    Balanced s' (d :: held) := by
  obtain ⟨x, hx⟩ := h.rootAlive
  rw [vfsPathLookup] at hr
  split at hr
  · cases (Prod.mk.inj hr).1
  · exact walkPath_some (h.get hx) pathNames_length hr

theorem vfsPathLookup_none (h : Balanced s held) (hr : s.vfsPathLookup ops path = (none, s')) :
    Balanced s' held ∧ (path ≠ [] → s'.cached s'.root (pathNames path) = none) := by
  obtain ⟨x, hx⟩ := h.rootAlive
  rw [vfsPathLookup] at hr
  split at hr
  · rename_i hnil
    obtain ⟨-, rfl⟩ := Prod.mk.inj hr
    exact ⟨h, fun hne => absurd hnil hne⟩
  · obtain ⟨hb, hgrows, hcached⟩ := walkPath_none (h.get hx) pathNames_length hr
    refine ⟨hb, fun _ => ?_⟩
    rw [hgrows.root, dentryGet_root]
    exact hcached

/-- The leaf of the path is not in the cache, where `vfs_lookup_parent` would get that far. -/
def Uncached (s : VfsState φ ι) (path : Name) : Prop :=
  path.head? = some 47 → components path ≠ [] → (∀ c ∈ components path, c.length < NAME_MAX) →
    s.cached s.root (components path) = none

/-- **`vfs_lookup_parent`**. -/
theorem vfsLookupParent_some {leaf : Name} (h : Balanced s held)
    (hr : s.vfsLookupParent ops path = (some (p, leaf), s')) :
    Balanced s' (p :: held) ∧ leaf.length < NAME_MAX ∧ (s.Uncached path → s'.childOf p leaf = none) := by
  obtain ⟨x, hx⟩ := h.rootAlive
  rw [vfsLookupParent] at hr
  split at hr
  · cases (Prod.mk.inj hr).1
  · rename_i hslash
    split at hr
    · cases (Prod.mk.inj hr).1
    · rename_i hne
      obtain ⟨hb, hleaf, hshort, hmiss⟩ := walkParent_some (h.get hx) hr
      refine ⟨hb, hleaf, fun hunc => hmiss ?_⟩
      rw [cached_congr (getRoot_childOf s)]
      exact hunc (not_not.mp hslash) hne hshort

theorem vfsLookupParent_none (h : Balanced s held) (hr : s.vfsLookupParent ops path = (none, s')) :
    Balanced s' held := by
  obtain ⟨x, hx⟩ := h.rootAlive
  rw [vfsLookupParent] at hr
  split at hr
  · obtain ⟨-, rfl⟩ := Prod.mk.inj hr
    exact h
  · split at hr
    · obtain ⟨-, rfl⟩ := Prod.mk.inj hr
      exact h
    · exact walkParent_none (h.get hx) hr

/-- **`vfs_mknod`** of a path that is in the cache leaves a reference behind. -/
theorem Balanced.vfsMknod_leaks (h : Balanced s held) (path : Name) (mode : ℕ) (dir : Bool) :
    ∃ leaked, Balanced (s.vfsMknod ops path mode dir).2 (leaked ++ held) ∧ (s.Uncached path → leaked = []) := by
  -- in all cases but one nothing is left behind
  have hnone : ∀ s₁ : VfsState φ ι, Balanced s₁ held →
      ∃ leaked, Balanced s₁ (leaked ++ held) ∧ (s.Uncached path → leaked = []) := fun s₁ hs₁ => ⟨[], hs₁, fun _ => rfl⟩
  rw [VfsState.vfsMknod]
  cases hparent : s.vfsLookupParent ops path with
  | mk r s₁ =>
    cases r with
    | none => exact hnone _ (vfsLookupParent_none h hparent)
    | some pl =>
      obtain ⟨p, leaf⟩ := pl
      obtain ⟨hb, hleaf, hmiss⟩ := vfsLookupParent_some h hparent
      simp only []
      split
      · exact hnone _ hb.put
      · rename_i op _
        rw [dentryLookup]
        cases hchild : s₁.childOf p leaf with
        | some c =>
          obtain ⟨x, hx⟩ := hb.of_linked (mem_of_childOf hchild)
          refine ⟨[c], (hb.get hx).swap.put, fun hunc => ?_⟩
          rw [hmiss hunc] at hchild
          cases hchild
        | none =>
          simp only []
          cases halloc : s₁.dentryAlloc ops leaf with
          | mk r s₂ =>
            cases r with
            | none => exact hnone _ (hb.alloc_none halloc).1.put
            | some d =>
              obtain ⟨x, hx⟩ := hb.of_held List.mem_cons_self
              obtain ⟨hb₂, -, -, -, -, -, hself⟩ := hb.alloc halloc
              simp only []
              split
              · exact hnone _ (hb.link _ _ (hb.lt_fresh hx) hleaf hchild halloc).1.put
              · exact hnone _ (hb₂.setInode hself _ _).put.put

/-- **`vfs_mknod`** of a path that is not in the cache. -/
theorem Balanced.vfsMknod (h : Balanced s held) (hunc : s.Uncached path) (mode : ℕ) (dir : Bool) :
    Balanced (s.vfsMknod ops path mode dir).2 held := by
  obtain ⟨leaked, hb, hleaked⟩ := h.vfsMknod_leaks path mode dir
  rw [hleaked hunc] at hb
  exact hb

/-- The cached copy of what was removed loses its link. -/
theorem Balanced.dropCached (h : Balanced s held) (p : ℕ) (leaf : Name) : Balanced (s.dropCached p leaf) held := by
  rw [VfsState.dropCached, dentryLookup]
  cases hchild : s.childOf p leaf with
  | none => exact h
  | some c =>
    have hc := mem_of_childOf hchild
    obtain ⟨x, hx⟩ := h.of_linked hc
    have hget := h.get hx
    have hlinked : c ∈ (s.dentryGet c).linked := by
      rw [dentryGet_linked]
      exact hc
    exact (hget.unlink hlinked).put.put

/-- **`vfs_remove`**. -/
theorem Balanced.vfsRemove (h : Balanced s held) (path : Name) (dir : Bool) :
    Balanced (s.vfsRemove ops path dir).2 held := by
  rw [VfsState.vfsRemove]
  cases hparent : s.vfsLookupParent ops path with
  | mk r s₁ =>
    cases r with
    | none => exact vfsLookupParent_none h hparent
    | some pl =>
      obtain ⟨p, leaf⟩ := pl
      obtain ⟨hb, -⟩ := vfsLookupParent_some h hparent
      simp only []
      split
      · exact hb.put
      · rename_i op _
        cases halloc : s₁.dentryAlloc ops leaf with
        | mk r s₂ =>
          cases r with
          | none => exact (hb.alloc_none halloc).1.put
          | some d =>
            obtain ⟨hb₂, -⟩ := hb.alloc halloc
            have hfs := hb₂.withFs (op s₂.fs leaf).2
            simp only []
            split
            · exact (hfs.dropCached p leaf).put.put
            · exact hfs.put.put

/-- The reference of a call becomes that of an open file. -/
theorem Balanced.keep {f : File ι} {n : ℕ} (h : Balanced s (d :: held)) (hf : f.dentry = d) :
    Balanced { s with files := s.files ++ [f], nextFile := n } held := by
  refine ⟨fun e => ?_, h.alive, h.fresh, h.parents, h.nodup, h.root⟩
  have hcount := h.count e
  have hopen : openOn { s with files := s.files ++ [f], nextFile := n } e = s.openOn e + [d].count e := by
    rw [openOn, List.map_append, List.count_append]
    show s.openOn e + [f.dentry].count e = _
    rw [hf]
  rw [← List.singleton_append, List.count_append] at hcount
  have hcache : cacheRef { s with files := s.files ++ [f], nextFile := n } e = s.cacheRef e := rfl
  show s.refcountOf e = _
  rw [hcount, hopen, hcache]
  omega

/-- Where an open file stands in the list, and the list without it. -/
theorem files_of_fileAt {f : File ι} {id : ℕ} (hf : s.fileAt id = some f) :
    ∃ as bs, s.files = as ++ f :: bs ∧ (s.files.eraseP fun f => decide (f.id = id)) = as ++ bs := by
  obtain ⟨hid, as, bs, hfiles, has⟩ := List.find?_eq_some_iff_append.mp hf
  refine ⟨as, bs, hfiles, ?_⟩
  have hnone : ∀ x ∈ as, ¬decide (x.id = id) = true := by
    intro x hx
    rw [Bool.not_eq_true, ← Bool.not_eq_true']
    exact has x hx
  rw [hfiles, List.eraseP_append_right _ hnone, List.eraseP_cons, hid, cond_true]

/-- The reference of an open file becomes that of the call. -/
theorem Balanced.release {f : File ι} {id : ℕ} {closed : List ℕ} (h : Balanced s held) (hf : s.fileAt id = some f) :
    Balanced { s with files := s.files.eraseP fun f => decide (f.id = id), closed := closed } (f.dentry :: held) := by
  refine ⟨fun e => ?_, h.alive, h.fresh, h.parents, h.nodup, h.root⟩
  have hcount := h.count e
  obtain ⟨as, bs, hfiles, herase⟩ := files_of_fileAt hf
  have hopen : s.openOn e =
      openOn { s with files := s.files.eraseP fun f => decide (f.id = id), closed := closed } e +
        [f.dentry].count e := by
    show (s.files.map fun f => f.dentry).count e =
      ((s.files.eraseP fun f => decide (f.id = id)).map fun f => f.dentry).count e + _
    rw [herase, hfiles, List.map_append, List.map_append, List.count_append, List.count_append, List.map_cons,
      ← List.singleton_append, List.count_append]
    omega
  have hcache : cacheRef { s with files := s.files.eraseP fun f => decide (f.id = id), closed := closed } e =
      s.cacheRef e := rfl
  rw [← List.singleton_append, List.count_append]
  show s.refcountOf e = _
  rw [hcount, hopen, hcache]
  omega

/-- **`vfs_open`** of a dentry keeps its reference or drops it. -/
theorem Balanced.openDentry (h : Balanced s (d :: held)) (flags : ℕ) : Balanced (s.openDentry ops d flags).2 held := by
  rw [VfsState.openDentry]
  cases s.inodeOf d with
  | none => exact h.put
  | some inode =>
    simp only []
    split
    · exact (h.withFs _).put
    · split
      · exact (h.withFs _).put
      · split
        · exact (h.withFs _).put
        · exact (h.withFs (openFile ops inode flags (ops.zalloc (openTruncate ops inode flags s.fs).2).2).2).keep rfl

/-- **`vfs_open`**: a file it creates was not in the cache. -/
theorem Balanced.vfsOpen (h : Balanced s held) (path : Name) (flags : ℕ) :
    Balanced (s.vfsOpen ops path flags).2 held := by
  rw [VfsState.vfsOpen]
  cases hlookup : s.vfsPathLookup ops path with
  | mk r s₁ =>
    cases r with
    | some d => exact (vfsPathLookup_some h hlookup).openDentry flags
    | none =>
      obtain ⟨hb, hcached⟩ := vfsPathLookup_none h hlookup
      simp only []
      split
      · have hunc : s₁.Uncached path := by
          intro _ hne hshort
          rw [← pathNames_eq hshort]
          apply hcached
          rintro rfl
          exact hne rfl
        have hcreate : Balanced (s₁.vfsCreate ops path 0).2 held := hb.vfsMknod hunc 0 false
        cases hmk : s₁.vfsCreate ops path 0 with
        | mk rc s₂ =>
          rw [hmk] at hcreate
          simp only []
          split
          · exact hcreate
          · cases hagain : s₂.vfsPathLookup ops path with
            | mk r s₃ =>
              cases r with
              | none => exact (vfsPathLookup_none hcreate hagain).1
              | some d => exact (vfsPathLookup_some hcreate hagain).openDentry flags
      · exact hb

/-- **`vfs_close`**. -/
theorem Balanced.vfsClose (h : Balanced s held) (id : ℕ) : Balanced (s.vfsClose ops id) held := by
  rw [VfsState.vfsClose]
  cases hf : s.fileAt id with
  | none => exact ⟨h.count, h.alive, h.fresh, h.parents, h.nodup, h.root⟩
  | some f => exact ((h.release hf).withFs _).put

end

end VfsState

/-! ### Runs -/

/-- The calls of a run; `lookup` is `vfs_path_lookup` with the `dentry_put` of its result. -/
inductive VfsCall
  | open (path : Name) (flags : ℕ)
  | close (id : ℕ)
  | create (path : Name) (mode : ℕ)
  | mkdir (path : Name) (mode : ℕ)
  | unlink (path : Name)
  | rmdir (path : Name)
  | lookup (path : Name)

namespace VfsState

/-- One call. -/
def exec (ops : FsOps φ ι) (s : VfsState φ ι) : VfsCall → VfsState φ ι
  | .open path flags => (s.vfsOpen ops path flags).2
  | .close id => s.vfsClose ops id
  | .create path mode => (s.vfsCreate ops path mode).2
  | .mkdir path mode => (s.vfsMkdir ops path mode).2
  | .unlink path => (s.vfsUnlink ops path).2
  | .rmdir path => (s.vfsRmdir ops path).2
  | .lookup path =>
      match s.vfsPathLookup ops path with
      | (none, s) => s
      | (some d, s) => s.dentryPut d

/-- A create call names something that is not in the cache. -/
def NewName (s : VfsState φ ι) : VfsCall → Prop
  | .create path _ => s.Uncached path
  | .mkdir path _ => s.Uncached path
  | _ => True

/-- The state after `set_root`: the root alone. -/
def mounted (fs : φ) (inode : ι) : VfsState φ ι where
  fs := fs
  dentries := Function.update (fun _ => none) 0 (some ⟨[47], some 0, some inode, 1⟩)
  fresh := 1
  linked := []
  root := 0
  files := []
  nextFile := 0
  closed := []

/-- **The counts of a state between calls**: one for the cache and one for each open file, and a dentry is allocated as
long as it is linked or open. -/
structure Counted (s : VfsState φ ι) : Prop where
  linked : ∀ d x, s.dentries d = some x → d = s.root ∨ d ∈ s.linked → x.refcount = 1 + s.openOn d
  unlinked : ∀ d x, s.dentries d = some x → d ≠ s.root → d ∉ s.linked → x.refcount = s.openOn d
  allocated : ∀ d, (∃ x, s.dentries d = some x) ↔ d = s.root ∨ d ∈ s.linked ∨ 0 < s.openOn d

/-- Nothing is held between calls. -/
theorem Balanced.counted {s : VfsState φ ι} (h : Balanced s []) : Counted s := by
  have hcount : ∀ d x, s.dentries d = some x → x.refcount = s.cacheRef d + s.openOn d := by
    intro d x hx
    have hd := h.count d
    rw [refcountOf, hx] at hd
    exact hd
  refine ⟨fun d x hx hd => ?_, fun d x hx hroot hlinked => ?_, fun d => ?_⟩
  · rw [hcount d x hx, cacheRef, if_pos hd]
  · rw [hcount d x hx, cacheRef, if_neg (not_or.mpr ⟨hroot, hlinked⟩), Nat.zero_add]
  · rw [h.allocated_iff d, ← or_assoc, cacheRef]
    by_cases hd : d = s.root ∨ d ∈ s.linked
    · rw [if_pos hd]
      exact ⟨fun _ => .inl hd, fun _ => by omega⟩
    · rw [if_neg hd, Nat.zero_add]
      exact ⟨fun hpos => .inr hpos, fun hor => hor.resolve_left hd⟩

theorem mounted_balanced (fs : φ) (inode : ι) : Balanced (mounted fs inode) [] := by
  have hdentries : ∀ d x, (mounted fs inode).dentries d = some x → d = 0 ∧ x = ⟨[47], some 0, some inode, 1⟩ := by
    intro d x hx
    have hx : Function.update (fun _ => none) 0 (some (⟨[47], some 0, some inode, 1⟩ : Dentry ι)) d = some x := hx
    by_cases hd : d = 0
    · subst hd
      rw [Function.update_self] at hx
      exact ⟨rfl, (Option.some.inj hx).symm⟩
    · rw [Function.update_of_ne hd] at hx
      cases hx
  refine ⟨fun d => ?_, fun d x hx => ?_, fun d hd => ?_, fun d x p hx hp => ?_, List.nodup_nil, List.not_mem_nil⟩
  · by_cases hd : d = 0
    · subst hd
      rfl
    · have hnone : (mounted fs inode).dentries d = none := by
        show Function.update (fun _ => none) 0 (some (⟨[47], some 0, some inode, 1⟩ : Dentry ι)) d = none
        rw [Function.update_of_ne hd]
      have hcache : (mounted fs inode).cacheRef d = 0 := if_neg (not_or.mpr ⟨hd, List.not_mem_nil⟩)
      rw [refcountOf, hnone, hcache]
      rfl
  · obtain ⟨-, rfl⟩ := hdentries d x hx
    exact Nat.one_pos
  · have hd : d ≠ 0 := Nat.one_le_iff_ne_zero.mp hd
    show Function.update (fun _ => none) 0 (some (⟨[47], some 0, some inode, 1⟩ : Dentry ι)) d = none
    rw [Function.update_of_ne hd]
  · obtain ⟨-, rfl⟩ := hdentries d x hx
    obtain rfl := Option.some.inj hp
    exact Nat.one_pos

/-- One call that creates nothing that is in the cache. -/
theorem Balanced.exec {s : VfsState φ ι} (h : Balanced s []) {c : VfsCall} (hc : s.NewName c) :
    Balanced (s.exec ops c) [] := by
  cases c with
  | «open» path flags => exact h.vfsOpen path flags
  | close id => exact h.vfsClose id
  | create path mode => exact h.vfsMknod hc mode false
  | mkdir path mode => exact h.vfsMknod hc mode true
  | unlink path => exact h.vfsRemove path false
  | rmdir path => exact h.vfsRemove path true
  | lookup path =>
    rw [VfsState.exec]
    cases hlookup : s.vfsPathLookup ops path with
    | mk r s₁ =>
      cases r with
      | none => exact (vfsPathLookup_none h hlookup).1
      | some d => exact (vfsPathLookup_some h hlookup).put

/-- **Reference counts balance** in every run that never creates a name which is in the cache. -/
theorem counted_of_run {fs : φ} {inode : ι} {l : List (VfsState φ ι × VfsCall)} {s : VfsState φ ι}
    (hrun : Trace (fun s c s' => s' = exec ops s c) (mounted fs inode) l s) (hnew : ∀ x ∈ l, x.1.NewName x.2) :
    s.Counted := by
  have hs : Balanced s [] := by
    refine hrun.invariant (I := fun s => Balanced s []) (mounted_balanced fs inode) fun x hx s₂ hbal hstep => ?_
    rw [hstep]
    exact hbal.exec (hnew x hx)
  exact hs.counted

/-- A file system with an empty directory, where everything can be created. -/
def emptyDir : FsOps Unit Unit where
  zalloc fs := (true, fs)
  size _ _ := 0
  mode _ _ := 0
  lookup _ := some fun fs _ => (-1, none, fs)
  create _ := some fun fs _ _ => (0, some (), fs)
  mkdir _ := some fun fs _ _ => (0, some (), fs)
  unlink _ := some fun fs _ => (0, fs)
  rmdir _ := some fun fs _ => (0, fs)
  truncate _ := some fun fs _ => (0, fs)
  fileOpen _ := some fun fs _ => (0, fs)
  read _ := none
  write _ := none
  readdir _ := none
  fileRelease _ := some fun fs => fs

/-- Create a file, open it, remove it, close it. -/
theorem counted_of_run_removed :
    Counted (exec emptyDir (exec emptyDir (exec emptyDir (exec emptyDir (mounted () ()) (.create [47, 97] 0))
      (.open [47, 97] 0)) (.unlink [47, 97])) (.close 0)) := by
  refine counted_of_run (((Trace.nil.snoc rfl).snoc rfl).snoc rfl |>.snoc rfl) ?_
  intro x hx
  simp only [List.nil_append, List.cons_append, List.mem_cons, List.not_mem_nil, or_false] at hx
  obtain rfl | rfl | rfl | rfl := hx
  · intro _ _ _
    decide
  all_goals trivial

/-- A file that is created twice has a reference that nobody holds. -/
theorem counted_not_of_run : ¬Counted (exec emptyDir (exec emptyDir (mounted () ()) (.create [47, 97] 0))
    (.create [47, 97] 0)) := by
  intro h
  have hcount := h.linked 1 ⟨[97], some 0, some (), 2⟩ rfl (.inr (by decide))
  exact absurd hcount (by decide)

end VfsState

end LizardOs.Vfs
