import LizardOs.Lib.Bytes
import Mathlib.Data.List.Basic
import Mathlib.Data.Nat.Basic
import Mathlib.Logic.Function.Basic

/-!
# The virtual file system

`dentry.c` and the path functions of `vfs.c`.  The file system below is known by its tables of operations, `i_ops` and
`f_ops`, any of which may be missing for an inode.  A dentry is known by a number that is given out once, and so is an
open file.  The lists of children are kept as one list of all linked dentries in the order of linking; the children of a
dentry are those that name it as their parent.
-/

namespace LizardOs.Vfs

open LizardOs.Lib

/-- A path component, or a path, as its bytes. -/
abbrev Name := List UInt8

def NAME_MAX : ℕ := 255
def O_RDONLY : ℕ := 0x0000
def O_WRONLY : ℕ := 0x0001
def O_RDWR : ℕ := 0x0002
def O_CREAT : ℕ := 0x0040
def O_TRUNC : ℕ := 0x0200
def O_APPEND : ℕ := 0x0400

/-- `flags & mask`. -/
def hasFlag (flags mask : ℕ) : Bool := decide (flags &&& mask ≠ 0)

/-- The operations of a file system with inodes `ι` and a state `φ`, for an inode each: what `lookup`, `create` and
`mkdir` put into the dentry is part of their answer, and what `read` leaves in the caller's buffer.  `readdir` gives the
next offset and how many records it stored.  `zalloc` tells whether there is memory. -/
structure FsOps (φ ι : Type) where
  zalloc : φ → Bool × φ
  size : φ → ι → ℕ
  mode : φ → ι → ℕ
  lookup : ι → Option (φ → Name → ℤ × Option ι × φ)
  create : ι → Option (φ → Name → ℕ → ℤ × Option ι × φ)
  mkdir : ι → Option (φ → Name → ℕ → ℤ × Option ι × φ)
  unlink : ι → Option (φ → Name → ℤ × φ)
  rmdir : ι → Option (φ → Name → ℤ × φ)
  truncate : ι → Option (φ → ℕ → ℤ × φ)
  fileOpen : ι → Option (φ → ℕ → ℤ × φ)
  read : ι → Option (φ → Buf → ℕ → ℕ → ℤ × Buf × φ)
  write : ι → Option (φ → Buf → ℕ → ℕ → ℤ × φ)
  readdir : ι → Option (φ → ℕ → ℤ → ℕ × ℕ × φ)
  fileRelease : ι → Option (φ → φ)

/-- `struct dentry`. -/
structure Dentry (ι : Type) where
  name : Name
  parent : Option ℕ
  inode : Option ι
  refcount : ℕ

/-- `struct file`; `id` stands for its address and `private_data` holds the dentry. -/
structure File (ι : Type) where
  id : ℕ
  inode : ι
  offset : ℕ
  flags : ℕ
  dentry : ℕ

/-- The dentries that are allocated, those that are linked under a parent, and the open files.  `closed` are the files
that were passed to `vfs_close`, latest first. -/
structure VfsState (φ ι : Type) where
  fs : φ
  dentries : ℕ → Option (Dentry ι)
  fresh : ℕ
  linked : List ℕ
  root : ℕ
  files : List (File ι)
  nextFile : ℕ
  closed : List ℕ

variable {φ ι : Type} (ops : FsOps φ ι)

namespace VfsState

/-! ### Dentries -/

/-- `dentry_get`. -/
def dentryGet (s : VfsState φ ι) (d : ℕ) : VfsState φ ι :=
  match s.dentries d with
  | none => s
  | some x => { s with dentries := Function.update s.dentries d (some { x with refcount := x.refcount + 1 }) }

/-- `dentry_put`. -/
def dentryPut (s : VfsState φ ι) (d : ℕ) : VfsState φ ι :=
  match s.dentries d with
  | none => s
  | some x =>
      { s with
        dentries := Function.update s.dentries d
          (if x.refcount = 1 then none else some { x with refcount := x.refcount - 1 }) }

/-- `dentry_alloc`. -/
def dentryAlloc (s : VfsState φ ι) (name : Name) : Option ℕ × VfsState φ ι :=
  let r := ops.zalloc s.fs
  if r.1 = true then
    (some s.fresh,
      { s with
        fs := r.2
        dentries := Function.update s.dentries s.fresh (some ⟨name.take (NAME_MAX - 1), none, none, 1⟩)
        fresh := s.fresh + 1 })
  else (none, { s with fs := r.2 })

/-- `dentry_add`. -/
def dentryAdd (s : VfsState φ ι) (parent child : ℕ) : VfsState φ ι :=
  { s with
    dentries := Function.update s.dentries child ((s.dentries child).map fun x => { x with parent := some parent })
    linked := s.linked ++ [child] }

/-- The child of a dentry with a name. -/
def childOf (s : VfsState φ ι) (parent : ℕ) (name : Name) : Option ℕ :=
  s.linked.find? fun c =>
    match s.dentries c with
    | none => false
    | some x => decide (x.parent = some parent ∧ x.name = name)

/-- `dentry_lookup`. -/
def dentryLookup (s : VfsState φ ι) (parent : ℕ) (name : Name) : Option ℕ × VfsState φ ι :=
  match s.childOf parent name with
  | none => (none, s)
  | some d => (some d, s.dentryGet d)

/-- `d->inode`. -/
def inodeOf (s : VfsState φ ι) (d : ℕ) : Option ι := (s.dentries d).bind fun x => x.inode

/-- What an operation of the file system leaves in the dentry. -/
def setInode (s : VfsState φ ι) (d : ℕ) (inode : Option ι) (fs : φ) : VfsState φ ι :=
  { s with
    fs := fs
    dentries := Function.update s.dentries d ((s.dentries d).map fun x => { x with inode := inode }) }

/-! ### Paths -/

/-- The components of a path. -/
def components (path : Name) : List Name := (path.splitOn 47).filter fun c => !c.isEmpty

/-- A component in pieces that fit into a name, as `vfs_path_lookup` cuts it. -/
def pieces : ℕ → Name → List Name
  | 0, _ => []
  | n + 1, c => if c = [] then [] else c.take (NAME_MAX - 1) :: pieces n (c.drop (NAME_MAX - 1))

/-- The names that `vfs_path_lookup` looks up one after another. -/
def pathNames (path : Name) : List Name := (components path).flatMap fun c => pieces c.length c

/-- `vfs_lookup`. -/
def vfsLookup (s : VfsState φ ι) (parent : ℕ) (name : Name) : Option ℕ × VfsState φ ι :=
  match s.dentryLookup parent name with
  | (some d, s) => (some d, s)
  | (none, s) =>
      match s.dentryAlloc ops name with
      | (none, s) => (none, s)
      | (some d, s) =>
          match (s.inodeOf parent).bind ops.lookup with
          | none => (none, s.dentryPut d)
          | some lookup =>
              let r := lookup s.fs name
              if r.1 = 0 then (some d, ((s.setInode d r.2.1 r.2.2).dentryAdd parent d).dentryGet d)
              else (none, (s.setInode d r.2.1 r.2.2).dentryPut d)

/-- The loop of `vfs_path_lookup`. -/
def walkPath (s : VfsState φ ι) (cur : ℕ) : List Name → Option ℕ × VfsState φ ι
  | [] => (some cur, s)
  | n :: ns =>
      match s.vfsLookup ops cur n with
      | (none, s) => (none, s.dentryPut cur)
      | (some next, s) => walkPath (s.dentryPut cur) next ns

/-- `vfs_path_lookup`. -/
def vfsPathLookup (s : VfsState φ ι) (path : Name) : Option ℕ × VfsState φ ι :=
  if path = [] then (none, s) else walkPath ops (s.dentryGet s.root) s.root (pathNames path)

/-- The loop of `vfs_lookup_parent`. -/
def walkParent (s : VfsState φ ι) (cur : ℕ) : List Name → Option (ℕ × Name) × VfsState φ ι
  | [] => (none, s.dentryPut cur)
  | [leaf] => if NAME_MAX ≤ leaf.length then (none, s.dentryPut cur) else (some (cur, leaf), s)
  | n :: ns =>
      if NAME_MAX ≤ n.length then (none, s.dentryPut cur)
      else
        match s.vfsLookup ops cur n with
        | (none, s) => (none, s.dentryPut cur)
        | (some next, s) => walkParent (s.dentryPut cur) next ns

/-- `vfs_lookup_parent`. -/
def vfsLookupParent (s : VfsState φ ι) (path : Name) : Option (ℕ × Name) × VfsState φ ι :=
  if path.head? ≠ some 47 then (none, s)
  else if components path = [] then (none, s)
  else walkParent ops (s.dentryGet s.root) s.root (components path)

/-! ### Creating and removing -/

/-- `vfs_mknod`.  A dentry that `dentry_lookup` finds keeps the reference it was given. -/
def vfsMknod (s : VfsState φ ι) (path : Name) (mode : ℕ) (dir : Bool) : ℤ × VfsState φ ι :=
  match s.vfsLookupParent ops path with
  | (none, s) => (-1, s)
  | (some (parent, leaf), s) =>
      match (s.inodeOf parent).bind (if dir = true then ops.mkdir else ops.create) with
      | none => (-1, s.dentryPut parent)
      | some op =>
          match s.dentryLookup parent leaf with
          | (some _, s) => (-1, s.dentryPut parent)
          | (none, s) =>
              match s.dentryAlloc ops leaf with
              | (none, s) => (-1, s.dentryPut parent)
              | (some d, s) =>
                  let r := op s.fs leaf mode
                  let s := s.setInode d r.2.1 r.2.2
                  (r.1, (if r.1 = 0 then s.dentryAdd parent d else s.dentryPut d).dentryPut parent)

/-- `vfs_create`. -/
def vfsCreate (s : VfsState φ ι) (path : Name) (mode : ℕ) : ℤ × VfsState φ ι := s.vfsMknod ops path mode false

/-- `vfs_mkdir`. -/
def vfsMkdir (s : VfsState φ ι) (path : Name) (mode : ℕ) : ℤ × VfsState φ ι := s.vfsMknod ops path mode true

/-- What `vfs_remove` does with the cached copy: take it off the list, and drop the reference of the lookup and that of
the cache. -/
def dropCached (s : VfsState φ ι) (parent : ℕ) (leaf : Name) : VfsState φ ι :=
  match s.dentryLookup parent leaf with
  | (none, s) => s
  | (some d, s) => ({ s with linked := s.linked.erase d }.dentryPut d).dentryPut d

/-- `vfs_remove`. -/
def vfsRemove (s : VfsState φ ι) (path : Name) (dir : Bool) : ℤ × VfsState φ ι :=
  match s.vfsLookupParent ops path with
  | (none, s) => (-1, s)
  | (some (parent, leaf), s) =>
      match (s.inodeOf parent).bind (if dir = true then ops.rmdir else ops.unlink) with
      | none => (-1, s.dentryPut parent)
      | some op =>
          match s.dentryAlloc ops leaf with
          | (none, s) => (-1, s.dentryPut parent)
          | (some d, s) =>
              let r := op s.fs leaf
              let s := { s with fs := r.2 }
              (r.1, ((if r.1 = 0 then s.dropCached parent leaf else s).dentryPut d).dentryPut parent)

/-- `vfs_unlink`. -/
def vfsUnlink (s : VfsState φ ι) (path : Name) : ℤ × VfsState φ ι := s.vfsRemove ops path false

/-- `vfs_rmdir`. -/
def vfsRmdir (s : VfsState φ ι) (path : Name) : ℤ × VfsState φ ι := s.vfsRemove ops path true

/-! ### Opening and closing -/

/-- `O_TRUNC` on a writable open drops the contents. -/
def openTruncate (inode : ι) (flags : ℕ) (fs : φ) : ℤ × φ :=
  if hasFlag flags O_TRUNC = true ∧ hasFlag flags (O_WRONLY ||| O_RDWR) = true then
    match ops.truncate inode with
    | none => (0, fs)
    | some truncate => truncate fs 0
  else (0, fs)

/-- `f_ops->open`, where there is one. -/
def openFile (inode : ι) (flags : ℕ) (fs : φ) : ℤ × φ :=
  match ops.fileOpen inode with
  | none => (0, fs)
  | some fileOpen => fileOpen fs flags

/-- The part of `vfs_open` after the lookup, which holds a reference to `d`. -/
def openDentry (s : VfsState φ ι) (d flags : ℕ) : Option ℕ × VfsState φ ι :=
  match s.inodeOf d with
  | none => (none, s.dentryPut d)
  | some inode =>
      let t := openTruncate ops inode flags s.fs
      if t.1 ≠ 0 then (none, { s with fs := t.2 }.dentryPut d)
      else
        let m := ops.zalloc t.2
        if m.1 = false then (none, { s with fs := m.2 }.dentryPut d)
        else
          let o := openFile ops inode flags m.2
          if o.1 ≠ 0 then (none, { s with fs := o.2 }.dentryPut d)
          else
            (some s.nextFile,
              { s with
                fs := o.2
                files := s.files ++ [⟨s.nextFile, inode, 0, flags, d⟩]
                nextFile := s.nextFile + 1 })

/-- `vfs_open`. -/
def vfsOpen (s : VfsState φ ι) (path : Name) (flags : ℕ) : Option ℕ × VfsState φ ι :=
  match s.vfsPathLookup ops path with
  | (some d, s) => s.openDentry ops d flags
  | (none, s) =>
      if hasFlag flags O_CREAT = true then
        match s.vfsCreate ops path 0 with
        | (rc, s) =>
            if rc ≠ 0 then (none, s)
            else
              match s.vfsPathLookup ops path with
              | (none, s) => (none, s)
              | (some d, s) => s.openDentry ops d flags
      else (none, s)

/-- The open file behind a pointer. -/
def fileAt (s : VfsState φ ι) (id : ℕ) : Option (File ι) := s.files.find? fun f => decide (f.id = id)

/-- `vfs_close`. -/
def vfsClose (s : VfsState φ ι) (id : ℕ) : VfsState φ ι :=
  match s.fileAt id with
  | none => { s with closed := id :: s.closed }
  | some file =>
      let fs :=
        match ops.fileRelease file.inode with
        | none => s.fs
        | some release => release s.fs
      { s with fs := fs, files := s.files.eraseP fun f => decide (f.id = id), closed := id :: s.closed }.dentryPut
        file.dentry

/-! ### Reading and writing -/

/-- `file->offset = offset`. -/
def setOffset (s : VfsState φ ι) (id offset : ℕ) : VfsState φ ι :=
  { s with files := s.files.map fun f => if f.id = id then { f with offset := offset } else f }

/-- `file->offset += n` for an `n` that is positive. -/
def advance (s : VfsState φ ι) (id offset : ℕ) (n : ℤ) : VfsState φ ι :=
  if 0 < n then s.setOffset id ((offset + n.toNat) % 2 ^ 64) else s

/-- `vfs_read`: the return value and the caller's buffer. -/
def vfsRead (s : VfsState φ ι) (id : ℕ) (buf : Buf) (count : ℕ) : ℤ × Buf × VfsState φ ι :=
  match s.fileAt id with
  | none => (-1, buf, s)
  | some file =>
      match ops.read file.inode with
      | none => (-1, buf, s)
      | some read =>
          let r := read s.fs buf count file.offset
          (r.1, r.2.1, { s with fs := r.2.2 }.advance id file.offset r.1)

/-- Where `vfs_write` starts to write. -/
def writeOffset (s : VfsState φ ι) (file : File ι) : ℕ :=
  if hasFlag file.flags O_APPEND = true then ops.size s.fs file.inode else file.offset

/-- `vfs_write`. -/
def vfsWrite (s : VfsState φ ι) (id : ℕ) (buf : Buf) (count : ℕ) : ℤ × VfsState φ ι :=
  match s.fileAt id with
  | none => (-1, s)
  | some file =>
      match ops.write file.inode with
      | none => (-1, s)
      | some write =>
          let offset := s.writeOffset ops file
          let r := write s.fs buf count offset
          (r.1, ({ s with fs := r.2 }.setOffset id offset).advance id offset r.1)

end VfsState

/-! ### What a walk does, step by step -/

/-- A relation between the states before and after that holds along a walk when it holds of each `vfs_lookup`. -/
structure WalkRel (R : VfsState φ ι → VfsState φ ι → Prop) : Prop where
  refl : ∀ s, R s s
  trans : ∀ {s s' s''}, R s s' → R s' s'' → R s s''
  get : ∀ s d, R s (s.dentryGet d)
  put : ∀ s d, R s (s.dentryPut d)

namespace WalkRel

variable {ops} {R : VfsState φ ι → VfsState φ ι → Prop} {ns : List Name} {path : Name}

theorem walkPath (h : WalkRel R) (hlookup : ∀ n ∈ ns, ∀ s p, R s (VfsState.vfsLookup ops s p n).2) (s : VfsState φ ι)
    (cur : ℕ) : R s (s.walkPath ops cur ns).2 := by
  induction ns generalizing s cur with
  | nil => exact h.refl s
  | cons n ns ih =>
    have hhead := hlookup n List.mem_cons_self s cur
    have htail := ih fun m hm => hlookup m (List.mem_cons_of_mem _ hm)
    rw [VfsState.walkPath]
    cases hr : s.vfsLookup ops cur n with
    | mk r s₁ =>
      rw [hr] at hhead
      have hput : R s (s₁.dentryPut cur) := h.trans hhead (h.put s₁ cur)
      cases r with
      | none => exact hput
      | some next => exact h.trans hput (htail (s₁.dentryPut cur) next)

theorem vfsPathLookup (h : WalkRel R)
    (hlookup : ∀ n ∈ VfsState.pathNames path, ∀ s p, R s (VfsState.vfsLookup ops s p n).2) (s : VfsState φ ι) :
    R s (s.vfsPathLookup ops path).2 := by
  rw [VfsState.vfsPathLookup]
  split
  · exact h.refl s
  · exact h.trans (h.get s s.root) (h.walkPath hlookup _ _)

/-- `vfs_lookup_parent` looks up names that fit into a buffer only. -/
theorem walkParent (h : WalkRel R)
    (hlookup : ∀ n ∈ ns, n.length < NAME_MAX → ∀ s p, R s (VfsState.vfsLookup ops s p n).2) (s : VfsState φ ι)
    (cur : ℕ) : R s (s.walkParent ops cur ns).2 := by
  induction ns generalizing s cur with
  | nil => exact h.put s cur
  | cons n ns ih =>
    cases ns with
    | nil =>
      rw [VfsState.walkParent]
      split
      · exact h.put s cur
      · exact h.refl s
    | cons m ms =>
      rw [VfsState.walkParent]
      · split
        · exact h.put s cur
        · rename_i hlen
          have hhead := hlookup n List.mem_cons_self (Nat.lt_of_not_le hlen) s cur
          have htail := ih fun k hk => hlookup k (List.mem_cons_of_mem _ hk)
          cases hr : s.vfsLookup ops cur n with
          | mk r s₁ =>
            rw [hr] at hhead
            have hput : R s (s₁.dentryPut cur) := h.trans hhead (h.put s₁ cur)
            cases r with
            | none => exact hput
            | some next => exact h.trans hput (htail (s₁.dentryPut cur) next)
      · intro heq
        cases heq

theorem vfsLookupParent (h : WalkRel R)
    (hlookup : ∀ n ∈ VfsState.components path, n.length < NAME_MAX →
      ∀ s p, R s (VfsState.vfsLookup ops s p n).2) (s : VfsState φ ι) : R s (s.vfsLookupParent ops path).2 := by
  rw [VfsState.vfsLookupParent]
  split
  · exact h.refl s
  · split
    · exact h.refl s
    · exact h.trans (h.get s s.root) (h.walkParent hlookup _ _)

end WalkRel

end LizardOs.Vfs
