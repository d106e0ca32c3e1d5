import LizardOs.Vfs.FatVolume
import LizardOs.Vfs.Paths
import LizardOs.Vfs.RefCounts

/-!
# Callers, and the names in the cache

`vfs_path_lookup` hands out a reference that its caller drops later: a session is the virtual file system with the
dentries that callers hold.  Whatever is called, the counts stay those of the cache, the open files and the callers, up to
references that `vfs_mknod` leaves behind, and no name in the cache fills the buffer of a walk (`Sound.run`).
-/

namespace LizardOs.Vfs

open LizardOs.Lib

variable {φ ι : Type} {ops : FsOps φ ι}

namespace VfsState

/-! ### What a lookup can do -/

section

variable {s s' : VfsState φ ι} {held : List ℕ} {c d p : ℕ} {n name path : Name} {r : Option ℕ}

theorem dentryAlloc_some (hr : s.dentryAlloc ops name = (some d, s')) :
    d = s.fresh ∧ s'.fresh = s.fresh + 1 ∧ s'.linked = s.linked ∧ s'.root = s.root ∧ s'.files = s.files ∧
      s'.dentries = Function.update s.dentries s.fresh (some ⟨name.take (NAME_MAX - 1), none, none, 1⟩) := by
  rw [dentryAlloc] at hr
  split at hr
  · obtain ⟨hd, rfl⟩ := Prod.mk.inj hr
    exact ⟨(Option.some.inj hd).symm, rfl, rfl, rfl, rfl, rfl⟩
  · cases (Prod.mk.inj hr).1

theorem dentryAlloc_none (hr : s.dentryAlloc ops name = (none, s')) : s' = { s with fs := s'.fs } := by
  rw [dentryAlloc] at hr
  split at hr
  · cases (Prod.mk.inj hr).1
  · obtain ⟨-, rfl⟩ := Prod.mk.inj hr
    rfl

/-- **What `vfs_lookup` can do**: find a cached child, fail for want of memory, drop a dentry the file system has nothing
for, or link one that it has. -/
theorem vfsLookup_cases (hr : s.vfsLookup ops p n = (r, s')) :
    (∃ d, s.childOf p n = some d ∧ r = some d ∧ s' = s.dentryGet d) ∨
      (r = none ∧ s.dentryAlloc ops n = (none, s')) ∨
      ∃ d s₁, s.dentryAlloc ops n = (some d, s₁) ∧
        ((r = none ∧ (s' = s₁.dentryPut d ∨ ∃ inode fs, s' = (s₁.setInode d inode fs).dentryPut d)) ∨
          ∃ i lookup inode fs, ops.lookup i = some lookup ∧ (lookup s₁.fs n).1 = 0 ∧ r = some d ∧
            s' = ((s₁.setInode d inode fs).dentryAdd p d).dentryGet d) := by
  rw [vfsLookup, dentryLookup] at hr
  cases hchild : s.childOf p n with
  | some d =>
    rw [hchild] at hr
    obtain ⟨rfl, rfl⟩ := Prod.mk.inj hr
    exact .inl ⟨d, rfl, rfl, rfl⟩
  | none =>
    rw [hchild] at hr
    simp only [] at hr
    cases halloc : s.dentryAlloc ops n with
    | mk a s₁ =>
      rw [halloc] at hr
      cases a with
      | none =>
        obtain ⟨rfl, rfl⟩ := Prod.mk.inj hr
        exact .inr (.inl ⟨rfl, rfl⟩)
      | some d =>
        refine .inr (.inr ⟨d, s₁, rfl, ?_⟩)
        simp only [] at hr
        cases hop : (s₁.inodeOf p).bind ops.lookup with
        | none =>
          rw [hop] at hr
          obtain ⟨rfl, rfl⟩ := Prod.mk.inj hr
          exact .inl ⟨rfl, .inl rfl⟩
        | some lookup =>
          obtain ⟨i, -, hlookup⟩ := Option.bind_eq_some_iff.mp hop
          rw [hop] at hr
          simp only [] at hr
          split at hr
          · rename_i hrc
            obtain ⟨rfl, rfl⟩ := Prod.mk.inj hr
            exact .inr ⟨i, lookup, _, _, hlookup, hrc, rfl, rfl⟩
          · obtain ⟨rfl, rfl⟩ := Prod.mk.inj hr
            exact .inl ⟨rfl, .inr ⟨_, _, rfl⟩⟩

theorem mem_pieces {k : ℕ} {c m : Name} {b : UInt8} (hm : m ∈ pieces k c) (hb : b ∈ m) : b ∈ c := by
  induction k generalizing c with
  | zero => cases hm
  | succ k ih =>
    rw [pieces] at hm
    split at hm
    · cases hm
    · rcases List.mem_cons.mp hm with rfl | hm
      · exact List.mem_of_mem_take hb
      · exact List.mem_of_mem_drop (ih hm)

/-- The names of a path have no slash. -/
theorem pathNames_slash : ∀ m ∈ pathNames path, 47 ∉ m := by
  intro m hm hslash
  obtain ⟨c, hc, hm⟩ := List.mem_flatMap.mp hm
  exact (Vfs.mem_components hc).2 (mem_pieces hm hslash)

/-! ### Short names -/

/-- No name in the cache fills the buffer of a walk, and what is linked was given out. -/
structure Short (s : VfsState φ ι) : Prop where
  names : ∀ c ∈ s.linked, ∀ q n, s.key c = some (q, n) → 0 ∉ n → n.length < NAME_MAX - 1
  given : ∀ c ∈ s.linked, c < s.fresh

/-- Fewer links, and dentries that kept their names. -/
theorem Short.of_links (h : Short s) (hfresh : s.fresh ≤ s'.fresh)
    (hlinks : ∀ c ∈ s'.linked, c ∈ s.linked ∧ (s'.key c = s.key c ∨ s'.key c = none)) : Short s' := by
  refine ⟨fun c hc q n hkey hz => ?_, fun c hc => Nat.lt_of_lt_of_le (h.given c (hlinks c hc).1) hfresh⟩
  obtain ⟨hold, hsame | hnone⟩ := hlinks c hc
  · exact h.names c hold q n (hsame.symm.trans hkey) hz
  · rw [hnone] at hkey
    cases hkey

theorem dentryGet_fresh (s : VfsState φ ι) (d : ℕ) : (s.dentryGet d).fresh = s.fresh := by
  rw [dentryGet]
  split
  · rfl
  · rfl

theorem dentryPut_fresh (s : VfsState φ ι) (d : ℕ) : (s.dentryPut d).fresh = s.fresh := by
  rw [dentryPut]
  split
  · rfl
  · rfl

theorem Short.get (h : Short s) (d : ℕ) : Short (s.dentryGet d) := by
  refine h.of_links (dentryGet_fresh s d).ge fun c hc => ?_
  rw [dentryGet_linked] at hc
  exact ⟨hc, .inl (dentryGet_key s d c)⟩

/-- A dentry that is freed has no name. -/
theorem Short.put (h : Short s) (d : ℕ) : Short (s.dentryPut d) := by
  refine h.of_links (dentryPut_fresh s d).ge fun c hc => ?_
  rw [dentryPut_linked] at hc
  refine ⟨hc, ?_⟩
  rw [dentryPut]
  cases hx : s.dentries d with
  | none => exact .inl rfl
  | some x =>
    show (Function.update s.dentries d _ c).map _ = (s.dentries c).map _ ∨ (Function.update s.dentries d _ c).map _ = none
    by_cases hcd : c = d
    · rw [hcd, Function.update_self, hx]
      by_cases hone : x.refcount = 1
      · rw [if_pos hone]
        exact .inr rfl
      · rw [if_neg hone]
        exact .inl rfl
    · rw [Function.update_of_ne hcd]
      exact .inl rfl

theorem Short.setInode (h : Short s) (d : ℕ) (inode : Option ι) (fs : φ) : Short (s.setInode d inode fs) := by
  have hfresh : s.fresh ≤ (s.setInode d inode fs).fresh := le_rfl
  exact h.of_links hfresh fun c hc => ⟨hc, .inl (setInode_key s d inode fs c)⟩

theorem Short.withFs (h : Short s) (fs : φ) : Short { s with fs := fs } := ⟨h.names, h.given⟩

theorem Short.withHandles (h : Short s) (fs : φ) (files : List (File ι)) (closed : List ℕ) :
    Short { s with fs := fs, files := files, closed := closed } := ⟨h.names, h.given⟩

/-- The number of a new dentry is not linked. -/
theorem Short.alloc {a : Option ℕ} (h : Short s) (hr : s.dentryAlloc ops name = (a, s')) : Short s' := by
  cases a with
  | none =>
    rw [dentryAlloc_none hr]
    exact h.withFs _
  | some d =>
    obtain ⟨-, hfresh, hlinked, -, -, hdentries⟩ := dentryAlloc_some hr
    refine h.of_links (by omega) fun c hc => ?_
    rw [hlinked] at hc
    have hlt := h.given c hc
    refine ⟨hc, .inl ?_⟩
    rw [key, key, hdentries, Function.update_of_ne (by omega)]

/-- `dentry_add` gives a dentry its parent. -/
theorem dentryAdd_key (s : VfsState φ ι) (p d c : ℕ) :
    (s.dentryAdd p d).key c = if c = d then (s.key d).map fun k => (some p, k.2) else s.key c := by
  show (Function.update s.dentries d _ c).map _ = _
  by_cases hcd : c = d
  · rw [if_pos hcd, hcd, Function.update_self, key, Option.map_map, Option.map_map]
    rfl
  · rw [if_neg hcd, Function.update_of_ne hcd]
    rfl

/-- Linking a new dentry with a short name. -/
theorem Short.link (h : Short s) (hr : s.dentryAlloc ops name = (some d, s')) (hlen : name.length < NAME_MAX)
    (hname : 0 ∉ name → name.length < NAME_MAX - 1) (p : ℕ) (inode : Option ι) (fs : φ) :
    Short ((s'.setInode d inode fs).dentryAdd p d) := by
  have hset := (h.alloc hr).setInode d inode fs
  obtain ⟨rfl, hfresh, hlinked, -, -, hdentries⟩ := dentryAlloc_some hr
  refine ⟨fun c hc q n hkey hz => ?_, fun c hc => ?_⟩
  · rw [dentryAdd_key] at hkey
    rcases List.mem_append.mp hc with hc | hc
    · have hlt : c < s.fresh := h.given c (hlinked ▸ hc)
      rw [if_neg (by omega)] at hkey
      exact hset.names c hc q n hkey hz
    · have hself : s'.key s.fresh = some (none, name.take (NAME_MAX - 1)) := by
        rw [key, hdentries, Function.update_self]
        rfl
      rw [if_pos (List.mem_singleton.mp hc), setInode_key, hself] at hkey
      obtain ⟨-, rfl⟩ := Prod.mk.inj (Option.some.inj hkey)
      have htake : name.take (NAME_MAX - 1) = name := List.take_of_length_le (by rw [NAME_MAX] at *; omega)
      rw [htake] at hz ⊢
      exact hname hz
  · show c < s'.fresh
    rcases List.mem_append.mp hc with hc | hc
    · exact hset.given c hc
    · rw [List.mem_singleton.mp hc]
      omega

/-! ### The calls keep names short -/

/-- A name that a walk looks up. -/
structure Fits (n : Name) : Prop where
  length : n.length < NAME_MAX
  slash : 47 ∉ n

/-- A name that is found is short. -/
theorem Short.of_vfsLookup (h : Short s) (hops : ShortNames ops) (hslash : 47 ∉ n) (hzero : 0 ∉ n)
    (hr : s.vfsLookup ops p n = (some d, s')) : n.length < NAME_MAX - 1 := by
  obtain ⟨c, hchild, -, -⟩ | ⟨hnone, -⟩ | ⟨c, s₁, -, ⟨hnone, -⟩ | ⟨i, lookup, inode, fs, hop, hrc, -, -⟩⟩ :=
    vfsLookup_cases hr
  · exact h.names c (mem_of_childOf hchild) (some p) n (key_of_childOf hchild) hzero
  · cases hnone
  · cases hnone
  · exact hops.lookup i lookup s₁.fs n hop hrc hslash hzero

theorem Short.vfsLookup (h : Short s) (hops : ShortNames ops) (hn : Fits n) (p : ℕ) :
    Short (s.vfsLookup ops p n).2 := by
  cases hr : s.vfsLookup ops p n with
  | mk r s' =>
    obtain ⟨d, -, -, rfl⟩ | ⟨-, halloc⟩ | ⟨d, s₁, halloc, ⟨-, rfl | ⟨inode, fs, rfl⟩⟩ |
      ⟨i, lookup, inode, fs, hop, hrc, -, rfl⟩⟩ := vfsLookup_cases hr
    · exact h.get d
    · exact h.alloc halloc
    · exact (h.alloc halloc).put d
    · exact ((h.alloc halloc).setInode d inode fs).put d
    · exact (h.link halloc hn.length (hops.lookup i lookup s₁.fs n hop hrc hn.slash) p inode fs).get d

theorem Short.walkRel : WalkRel fun s s' : VfsState φ ι => Short s → Short s' :=
  ⟨fun _ h => h, fun h h' hs => h' (h hs), fun _ d h => h.get d, fun _ d h => h.put d⟩

theorem Short.vfsPathLookup (h : Short s) (hops : ShortNames ops) (path : Name) :
    Short (s.vfsPathLookup ops path).2 :=
  Short.walkRel.vfsPathLookup
    (fun n hn _ p hs => hs.vfsLookup hops ⟨pathNames_length n hn, pathNames_slash n hn⟩ p) s h

theorem Short.vfsLookupParent (h : Short s) (hops : ShortNames ops) (path : Name) :
    Short (s.vfsLookupParent ops path).2 :=
  Short.walkRel.vfsLookupParent
    (fun _ hn hlen _ p hs => hs.vfsLookup hops ⟨hlen, (Vfs.mem_components hn).2⟩ p) s h

/-- The leaf that `vfs_lookup_parent` copies. -/
theorem walkParent_leaf {cur : ℕ} {ns : List Name} {leaf : Name}
    (hr : s.walkParent ops cur ns = (some (p, leaf), s')) : leaf ∈ ns ∧ leaf.length < NAME_MAX := by
  induction ns generalizing s cur with
  | nil => cases (Prod.mk.inj hr).1
  | cons n ns ih =>
    cases ns with
    | nil =>
      rw [VfsState.walkParent] at hr
      split at hr
      · cases (Prod.mk.inj hr).1
      · rename_i hlen
        obtain ⟨-, rfl⟩ := Prod.mk.inj (Option.some.inj (Prod.mk.inj hr).1)
        exact ⟨List.mem_cons_self, Nat.lt_of_not_le hlen⟩
    | cons m ms =>
      rw [VfsState.walkParent] at hr
      · split at hr
        · cases (Prod.mk.inj hr).1
        · cases hlookup : s.vfsLookup ops cur n with
          | mk r s₁ =>
            rw [hlookup] at hr
            cases r with
            | none => cases (Prod.mk.inj hr).1
            | some next =>
              obtain ⟨hmem, hlen⟩ := ih hr
              exact ⟨List.mem_cons_of_mem _ hmem, hlen⟩
      · intro heq
        cases heq

theorem vfsLookupParent_leaf {leaf : Name} (hr : s.vfsLookupParent ops path = (some (p, leaf), s')) : Fits leaf := by
  rw [VfsState.vfsLookupParent] at hr
  split at hr
  · cases (Prod.mk.inj hr).1
  · split at hr
    · cases (Prod.mk.inj hr).1
    · obtain ⟨hmem, hlen⟩ := walkParent_leaf hr
      exact ⟨hlen, (Vfs.mem_components hmem).2⟩

theorem Short.vfsMknod (h : Short s) (hops : ShortNames ops) (path : Name) (mode : ℕ) (dir : Bool) :
    Short (s.vfsMknod ops path mode dir).2 := by
  have hparent := h.vfsLookupParent hops path
  rw [VfsState.vfsMknod]
  cases hr : s.vfsLookupParent ops path with
  | mk r s₁ =>
    rw [hr] at hparent
    cases r with
    | none => exact hparent
    | some pl =>
      obtain ⟨parent, leaf⟩ := pl
      have hleaf := vfsLookupParent_leaf hr
      simp only []
      split
      · exact hparent.put parent
      · rename_i op hop
        rw [dentryLookup]
        cases s₁.childOf parent leaf with
        | some c => exact (hparent.get c).put parent
        | none =>
          simp only []
          cases halloc : s₁.dentryAlloc ops leaf with
          | mk a s₂ =>
            cases a with
            | none => exact (hparent.alloc halloc).put parent
            | some d =>
              simp only []
              split
              · rename_i hrc
                obtain ⟨i, -, hi⟩ := Option.bind_eq_some_iff.mp hop
                have hshort : leaf.length < NAME_MAX - 1 := by
                  cases dir with
                  | true => exact hops.mkdir i op s₂.fs leaf mode hi hrc hleaf.slash
                  | false => exact hops.create i op s₂.fs leaf mode hi hrc hleaf.slash
                exact (hparent.link halloc hleaf.length (fun _ => hshort) parent _ _).put parent
              · exact (((hparent.alloc halloc).setInode d _ _).put d).put parent

theorem Short.dropCached (h : Short s) (p : ℕ) (leaf : Name) : Short (s.dropCached p leaf) := by
  rw [VfsState.dropCached, dentryLookup]
  cases s.childOf p leaf with
  | none => exact h
  | some c =>
    have hget := h.get c
    have herase : Short { s.dentryGet c with linked := (s.dentryGet c).linked.erase c } :=
      ⟨fun e he => hget.names e (List.mem_of_mem_erase he), fun e he => hget.given e (List.mem_of_mem_erase he)⟩
    exact (herase.put c).put c

theorem Short.vfsRemove (h : Short s) (hops : ShortNames ops) (path : Name) (dir : Bool) :
    Short (s.vfsRemove ops path dir).2 := by
  have hparent := h.vfsLookupParent hops path
  rw [VfsState.vfsRemove]
  cases hr : s.vfsLookupParent ops path with
  | mk r s₁ =>
    rw [hr] at hparent
    cases r with
    | none => exact hparent
    | some pl =>
      obtain ⟨parent, leaf⟩ := pl
      simp only []
      split
      · exact hparent.put parent
      · rename_i op _
        cases halloc : s₁.dentryAlloc ops leaf with
        | mk a s₂ =>
          have hs₂ := hparent.alloc halloc
          cases a with
          | none => exact hs₂.put parent
          | some d =>
            have hfs := hs₂.withFs (op s₂.fs leaf).2
            simp only []
            split
            · exact ((hfs.dropCached parent leaf).put d).put parent
            · exact (hfs.put d).put parent

theorem Short.openDentry (h : Short s) (d flags : ℕ) : Short (s.openDentry ops d flags).2 := by
  rw [VfsState.openDentry]
  cases s.inodeOf d with
  | none => exact h.put d
  | some inode =>
    simp only []
    split
    · exact (h.withFs _).put d
    · split
      · exact (h.withFs _).put d
      · split
        · exact (h.withFs _).put d
        · exact ⟨h.names, h.given⟩

theorem Short.vfsOpen (h : Short s) (hops : ShortNames ops) (path : Name) (flags : ℕ) :
    Short (s.vfsOpen ops path flags).2 := by
  have hlookup := h.vfsPathLookup hops path
  rw [VfsState.vfsOpen]
  cases hr : s.vfsPathLookup ops path with
  | mk r s₁ =>
    rw [hr] at hlookup
    cases r with
    | some d => exact hlookup.openDentry d flags
    | none =>
      simp only []
      split
      · have hcreate : Short (s₁.vfsCreate ops path 0).2 := hlookup.vfsMknod hops path 0 false
        cases hmk : s₁.vfsCreate ops path 0 with
        | mk rc s₂ =>
          rw [hmk] at hcreate
          simp only []
          split
          · exact hcreate
          · have hagain := hcreate.vfsPathLookup hops path
            cases hr' : s₂.vfsPathLookup ops path with
            | mk r s₃ =>
              rw [hr'] at hagain
              cases r with
              | none => exact hagain
              | some d => exact hagain.openDentry d flags
      · exact hlookup

theorem Short.vfsClose (h : Short s) (id : ℕ) : Short (s.vfsClose ops id) := by
  rw [VfsState.vfsClose]
  cases s.fileAt id with
  | none => exact ⟨h.names, h.given⟩
  | some f => exact (h.withHandles _ _ (id :: s.closed)).put f.dentry

/-- **One call** keeps names short. -/
theorem Short.exec (h : Short s) (hops : ShortNames ops) (c : VfsCall) : Short (s.exec ops c) := by
  cases c with
  | «open» path flags => exact h.vfsOpen hops path flags
  | close id => exact h.vfsClose id
  | create path mode => exact h.vfsMknod hops path mode false
  | mkdir path mode => exact h.vfsMknod hops path mode true
  | unlink path => exact h.vfsRemove hops path false
  | rmdir path => exact h.vfsRemove hops path true
  | lookup path =>
    have hlookup := h.vfsPathLookup hops path
    rw [VfsState.exec]
    cases hr : s.vfsPathLookup ops path with
    | mk r s₁ =>
      rw [hr] at hlookup
      cases r with
      | none => exact hlookup
      | some d => exact hlookup.put d

/-! ### Open files have no part in it -/

/-- Offsets move, the dentries of open files stay. -/
theorem Balanced.setOffset (h : Balanced s held) (id offset : ℕ) : Balanced (s.setOffset id offset) held := by
  have hopen : ∀ e, (s.setOffset id offset).openOn e = s.openOn e := by
    intro e
    show ((s.files.map _).map _).count e = (s.files.map _).count e
    rw [List.map_map]
    congr 1
    refine List.map_congr_left fun f _ => ?_
    show (if f.id = id then { f with offset := offset } else f).dentry = f.dentry
    split
    · rfl
    · rfl
  exact ⟨fun e => by rw [hopen]; exact h.count e, h.alive, h.fresh, h.parents, h.nodup, h.root⟩

theorem Balanced.advance (h : Balanced s held) (id offset : ℕ) (k : ℤ) : Balanced (s.advance id offset k) held := by
  rw [VfsState.advance]
  split
  · exact h.setOffset _ _
  · exact h

theorem Short.setOffset (h : Short s) (id offset : ℕ) : Short (s.setOffset id offset) := ⟨h.names, h.given⟩

theorem Short.advance (h : Short s) (id offset : ℕ) (k : ℤ) : Short (s.advance id offset k) := by
  rw [VfsState.advance]
  split
  · exact h.setOffset _ _
  · exact h

/-- `f_ops->readdir` on an open file. -/
def readdirFile (ops : FsOps φ ι) (s : VfsState φ ι) (id : ℕ) (max : ℤ) : VfsState φ ι :=
  match s.fileAt id with
  | none => s
  | some file =>
      match ops.readdir file.inode with
      | none => s
      | some readdir =>
          let r := readdir s.fs file.offset max
          { s with fs := r.2.2 }.setOffset id r.1

end

end VfsState

/-! ### Sessions -/

/-- The virtual file system with the dentries that callers hold. -/
structure Session (φ ι : Type) where
  vfs : VfsState φ ι
  held : List ℕ

/-- What callers do.  `find` is `vfs_path_lookup`, whose result the caller keeps, and `put` is `dentry_put`; `sys_readdir`
and `sys_lseek` go past `vfs.c`. -/
inductive SessionCall
  | call (c : VfsCall)
  | read (id : ℕ) (buf : Buf) (count : ℕ)
  | write (id : ℕ) (buf : Buf) (count : ℕ)
  | readdir (id : ℕ) (max : ℤ)
  | seek (id offset : ℕ)
  | find (path : Name)
  | put (d : ℕ)

namespace Session

/-- One call; a caller drops what it holds only. -/
def exec (ops : FsOps φ ι) (s : Session φ ι) : SessionCall → Option (Session φ ι)
  | .call c => some { s with vfs := s.vfs.exec ops c }
  | .read id buf count => some { s with vfs := (s.vfs.vfsRead ops id buf count).2.2 }
  | .write id buf count => some { s with vfs := (s.vfs.vfsWrite ops id buf count).2 }
  | .readdir id max => some { s with vfs := s.vfs.readdirFile ops id max }
  | .seek id offset => some { s with vfs := s.vfs.setOffset id offset }
  | .find path =>
      match s.vfs.vfsPathLookup ops path with
      | (none, vfs) => some { s with vfs := vfs }
      | (some d, vfs) => some ⟨vfs, d :: s.held⟩
  | .put d => if d ∈ s.held then some ⟨s.vfs.dentryPut d, s.held.erase d⟩ else none

/-- Nobody has called yet. -/
def start (fs : φ) (inode : ι) : Session φ ι := ⟨VfsState.mounted fs inode, []⟩

/-- Names are short, and the counts are those of the cache, the open files and the callers, with what was left behind. -/
structure Sound (s : Session φ ι) : Prop where
  short : s.vfs.Short
  balanced : ∃ leaked, s.vfs.Balanced (leaked ++ s.held)

theorem start_sound (fs : φ) (inode : ι) : Sound (start fs inode) :=
  ⟨⟨fun _ hc => (List.not_mem_nil hc).elim, fun _ hc => (List.not_mem_nil hc).elim⟩,
    [], VfsState.mounted_balanced fs inode⟩

variable {s s' : Session φ ι}

/-- A call that ends with nothing held leaves at most what `vfs_mknod` does. -/
theorem Sound.call (h : Sound s) (hops : ShortNames ops) (c : VfsCall) : Sound { s with vfs := s.vfs.exec ops c } := by
  obtain ⟨leaked, hb⟩ := h.balanced
  have hmknod : ∀ path mode dir, ∃ leaked, (s.vfs.vfsMknod ops path mode dir).2.Balanced (leaked ++ s.held) := by
    intro path mode dir
    obtain ⟨more, hmore⟩ : ∃ more, (s.vfs.vfsMknod ops path mode dir).2.Balanced (more ++ (leaked ++ s.held)) ∧ _ :=
      hb.vfsMknod_leaks path mode dir
    exact ⟨more ++ leaked, by rw [List.append_assoc]; exact hmore.1⟩
  refine ⟨h.short.exec hops c, ?_⟩
  cases c with
  | «open» path flags => exact ⟨leaked, hb.vfsOpen path flags⟩
  | close id => exact ⟨leaked, hb.vfsClose id⟩
  | create path mode => exact hmknod path mode false
  | mkdir path mode => exact hmknod path mode true
  | unlink path => exact ⟨leaked, hb.vfsRemove path false⟩
  | rmdir path => exact ⟨leaked, hb.vfsRemove path true⟩
  | lookup path =>
    refine ⟨leaked, ?_⟩
    show (VfsState.exec ops s.vfs (.lookup path)).Balanced _
    rw [VfsState.exec]
    cases hr : s.vfs.vfsPathLookup ops path with
    | mk r vfs =>
      cases r with
      | none => exact (VfsState.vfsPathLookup_none hb hr).1
      | some d => exact (VfsState.vfsPathLookup_some hb hr).put

/-- What callers do on an open file touches no dentry. -/
theorem Sound.onFile {vfs : VfsState φ ι} (h : Sound s) (hshort : s.vfs.Short → vfs.Short)
    (hbalanced : ∀ held, s.vfs.Balanced held → vfs.Balanced held) : Sound { s with vfs := vfs } := by
  obtain ⟨leaked, hb⟩ := h.balanced
  exact ⟨hshort h.short, leaked, hbalanced _ hb⟩

theorem Sound.read (h : Sound s) (id : ℕ) (buf : Buf) (count : ℕ) :
    Sound { s with vfs := (s.vfs.vfsRead ops id buf count).2.2 } := by
  rw [VfsState.vfsRead]
  split
  · exact h
  · split
    · exact h
    · exact h.onFile (fun hs => (hs.withFs _).advance _ _ _) fun _ hb => (hb.withFs _).advance _ _ _

theorem Sound.write (h : Sound s) (id : ℕ) (buf : Buf) (count : ℕ) :
    Sound { s with vfs := (s.vfs.vfsWrite ops id buf count).2 } := by
  rw [VfsState.vfsWrite]
  split
  · exact h
  · split
    · exact h
    · exact h.onFile (fun hs => ((hs.withFs _).setOffset _ _).advance _ _ _)
        fun _ hb => ((hb.withFs _).setOffset _ _).advance _ _ _

theorem Sound.readdir (h : Sound s) (id : ℕ) (max : ℤ) : Sound { s with vfs := s.vfs.readdirFile ops id max } := by
  rw [VfsState.readdirFile]
  split
  · exact h
  · split
    · exact h
    · exact h.onFile (fun hs => (hs.withFs _).setOffset _ _) fun _ hb => (hb.withFs _).setOffset _ _

/-- `vfs_path_lookup`, whose result the caller keeps. -/
theorem Sound.find (h : Sound s) (hops : ShortNames ops) (path : Name) (hr : s.exec ops (.find path) = some s') :
    Sound s' := by
  obtain ⟨leaked, hb⟩ := h.balanced
  have hshort := h.short.vfsPathLookup hops path
  rw [exec] at hr
  cases hlookup : s.vfs.vfsPathLookup ops path with
  | mk r vfs =>
    rw [hlookup] at hr hshort
    cases r with
    | none =>
      obtain rfl := Option.some.inj hr
      exact ⟨hshort, leaked, (VfsState.vfsPathLookup_none hb hlookup).1⟩
    | some d =>
      obtain rfl := Option.some.inj hr
      exact ⟨hshort, leaked, (VfsState.vfsPathLookup_some hb hlookup).perm List.perm_middle.symm⟩

/-- `dentry_put` of a dentry that a caller holds. -/
theorem Sound.put {d : ℕ} (h : Sound s) (hd : d ∈ s.held) : Sound ⟨s.vfs.dentryPut d, s.held.erase d⟩ := by
  obtain ⟨leaked, hb⟩ := h.balanced
  have hperm : (leaked ++ s.held).Perm (d :: (leaked ++ s.held.erase d)) :=
    ((List.perm_cons_erase hd).append_left leaked).trans List.perm_middle
  exact ⟨h.short.put d, leaked, (hb.perm hperm).put⟩

/-- **One call** keeps a session sound. -/
theorem Sound.step (h : Sound s) (hops : ShortNames ops) (c : SessionCall) (hr : s.exec ops c = some s') : Sound s' := by
  cases c with
  | call c =>
    obtain rfl := Option.some.inj hr
    exact h.call hops c
  | read id buf count =>
    obtain rfl := Option.some.inj hr
    exact h.read id buf count
  | write id buf count =>
    obtain rfl := Option.some.inj hr
    exact h.write id buf count
  | readdir id max =>
    obtain rfl := Option.some.inj hr
    exact h.readdir id max
  | seek id offset =>
    obtain rfl := Option.some.inj hr
    exact h.onFile (fun hs => hs.setOffset _ _) fun _ hb => hb.setOffset _ _
  | find path => exact h.find hops path hr
  | put d =>
    rw [exec] at hr
    split at hr
    · obtain rfl := Option.some.inj hr
      exact h.put ‹_›
    · cases hr

/-- **Every session is sound.** -/
theorem Sound.run {fs : φ} {inode : ι} (hops : ShortNames ops)
    (hrun : Reaches (fun s c s' => exec ops s c = some s') (start fs inode) s) : Sound s :=
  hrun.invariant (start_sound fs inode) fun _ c _ hs hr => hs.step hops c hr

end Session

end LizardOs.Vfs
