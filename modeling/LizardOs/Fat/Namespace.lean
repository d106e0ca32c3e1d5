import LizardOs.Fat.Files

/-!
# Names: create, mkdir, unlink, rmdir, lookup, readdir

The namespace half of `fat16.c`.  The directory argument of each operation is an inode of which only the
first cluster is read (`0` is the root directory).
-/

namespace LizardOs.Fat

open LizardOs.Lib

/-- The common beginning of `fat16_create` and `fat16_mkdir`: the name is refused, or its entry goes on. -/
def enterName (now : DosStamp) (d : ℕ) (name : CStr) (attributes : UInt8)
    (go : Fat16 → Fat16Directory → Fs (Option Inode)) : Fs (Option Inode) := do
  let fs ← Prog.get
  if fs.readOnly then pure none
  else
    match fat16FillEntry now name attributes with
    | none => pure none
    | some ent => do
        match ← fat16DirFind d name with
        | some _ => pure none
        | none => go fs ent

/-- The end of `fat16_create`. -/
def placeEntry (loc : DirLoc) (ent : Fat16Directory) : Fs (Option Inode) := do
  if ← fat16DirWrite loc ent then fat16MakeInode ent loc else pure none

/-- `fat16_create` behind its checks. -/
def createEntry (d : ℕ) (ent : Fat16Directory) : Fs (Option Inode) := do
  match ← fat16DirAllocSlot d with
  | none => pure none
  | some loc => placeEntry loc ent

/-- `fat16_create`: the inode of the new file. -/
def fat16Create (now : DosStamp) (dir : Inode) (name : CStr) : Fs (Option Inode) :=
  enterName now dir.ent.cluster name FAT16_ATTR_ARCHIVE fun _ ent => createEntry dir.ent.cluster ent

/-- The `.` entry `fat16_mkdir` lays down, and the `..` entry made from it. -/
def dotEntry (now : DosStamp) (cluster : ℕ) : Fat16Directory :=
  fat16EntryStamp now
    { Fat16Directory.zero with
      name := dotName
      extension := blankExt
      attributes := FAT16_ATTR_DIRECTORY
      firstClusterLow := UInt16.ofNat cluster }

def dotdotEntry (now : DosStamp) (dirFirst cluster : ℕ) : Fat16Directory :=
  { dotEntry now cluster with
    name := dotdotName
    firstClusterLow := UInt16.ofNat dirFirst }

/-- The first sector of a new directory. -/
def dotSector (now : DosStamp) (dirFirst cluster : ℕ) : Buf :=
  splice (splice (fun _ => 0) 0 (dotEntry now cluster).toBytes FAT16_DIR_ENTRY_SIZE)
    FAT16_DIR_ENTRY_SIZE (dotdotEntry now dirFirst cluster).toBytes FAT16_DIR_ENTRY_SIZE

/-- The label `undo` of `fat16_mkdir`. -/
def mkdirUndo (cluster : ℕ) : Fs (Option Inode) := do
  let _ ← fat16ChainFree cluster
  pure none

/-- `fat16_mkdir` behind its checks. -/
def mkdirEntry (now : DosStamp) (d : ℕ) (h : FatHeader) (ent : Fat16Directory) : Fs (Option Inode) := do
  match ← fat16ClusterAlloc with
  | none => pure none
  | some cluster => do
      let ent := { ent with firstClusterLow := UInt16.ofNat cluster }
      let base := h.clusterToLba cluster
      if ← zeroSectors (h.spc - 1) (base + 1) then
        if ← blkDevWrite base (dotSector now d cluster) then
          match ← fat16DirAllocSlot d with
          | none => mkdirUndo cluster
          | some loc =>
              if ← fat16DirWrite loc ent then do
                match ← fat16MakeInode ent loc with
                | none => mkdirUndo cluster
                | some ino => pure (some ino)
              else mkdirUndo cluster
        else pure none
      else pure none

/-- `fat16_mkdir`: the inode of the new directory. -/
def fat16Mkdir (now : DosStamp) (dir : Inode) (name : CStr) : Fs (Option Inode) :=
  enterName now dir.ent.cluster name FAT16_ATTR_DIRECTORY fun fs ent => mkdirEntry now dir.ent.cluster fs.header ent

/-- Mark a slot deleted: the end of `fat16_unlink` and `fat16_rmdir`. -/
def eraseEntry (ent : Fat16Directory) : Fat16Directory :=
  { ent with name := ent.name.set 0 FAT16_DIR_ENTRY_DELETED name_pos }

/-- The common end of `fat16_unlink` and `fat16_rmdir`: free the chain, then erase the entry. -/
def freeAndErase (loc : DirLoc) (ent : Fat16Directory) : Fs Bool := do
  if fat16ClusterValid ent.cluster then
    let _ ← fat16ChainFree ent.cluster
    pure ()
  fat16DirWrite loc (eraseEntry ent)

/-- `fat16_unlink`. -/
def fat16Unlink (dir : Inode) (name : CStr) : Fs Bool := do
  let fs ← Prog.get
  if fs.readOnly then pure false
  else do
    match ← fat16DirFind dir.ent.cluster name with
    | none => pure false
    | some (loc, ent) => if isDir ent then pure false else freeAndErase loc ent

/-- `fat16_rmdir`. -/
def fat16Rmdir (dir : Inode) (name : CStr) : Fs Bool := do
  let fs ← Prog.get
  if fs.readOnly then pure false
  else do
    match ← fat16DirFind dir.ent.cluster name with
    | none => pure false
    | some (loc, ent) =>
        if isDir ent then do
          if ← fat16DirEmpty ent.cluster then freeAndErase loc ent else pure false
        else pure false

/-! ### Lookup and readdir -/

/-- `lookup_cb`; the context is the dentry's inode. -/
def lookupCb (name : CStr) : DirCb (Option Inode) := fun e _ loc ctx =>
  if fat16EntryValid e = false then pure (0, ctx)
  else if fat16NameCmp name e ≠ 0 then pure (0, ctx)
  else do
    match ← fat16MakeInode e loc with
    | none => pure (-1, ctx)
    | some ino => pure (1, some ino)

/-- `fat16_lookup`: the inode of the first entry of that name. -/
def fat16Lookup (dir : Inode) (name : CStr) : Fs (Option Inode) := do
  let p ← fat16WalkDir dir.ent.cluster (lookupCb name) none
  pure (if p.1 = 1 then p.2 else none)

/-- The types of `struct dirent` that the volume code reports. -/
inductive DirentType where
  | dir
  | reg
deriving DecidableEq

/-- The part of `struct dirent` that differs between records. -/
structure Dirent where
  offset : ℕ
  type : DirentType
  name : CStr
deriving DecidableEq

/-- The record `readdir_cb` builds for an entry. -/
def direntOf (e : Fat16Directory) (offset : ℕ) : Dirent where
  offset := offset
  type := if isDir e then .dir else .reg
  name := fat16NameToStr e.name e.extension

/-- `struct readdir_ctx`, with the sink of `sys_readdir` in place of the opaque `dirent` pointer. -/
structure ReaddirCtx where
  start : ℕ
  next : ℕ
  count : ℕ
  /-- `readdir_sink`: the capacity of the caller's array and the records stored so far. -/
  max : ℤ
  out : List Dirent

/-- `readdir_filldir`: store one record unless the array is full. -/
def readdirFilldir (ctx : ReaddirCtx) (d : Dirent) : Option ReaddirCtx :=
  if ctx.max ≤ ctx.out.length then none else some { ctx with out := ctx.out ++ [d] }

/-- `readdir_cb`. -/
def readdirCb : DirCb ReaddirCtx := fun e offset _ ctx =>
  if offset < ctx.start then pure (0, ctx)
  else
    let ctx := { ctx with next := (offset + FAT16_DIR_ENTRY_SIZE) % 2 ^ 32 }
    if fat16EntryValid e = false then pure (0, ctx)
    else
      match readdirFilldir ctx (direntOf e offset) with
      | none => pure (1, ctx)
      | some ctx => pure (0, { ctx with count := ctx.count + 1 })

/-- `fat16_readdir` under `sys_readdir`'s sink: the new file offset and the records delivered. -/
def fat16Readdir (dir : Inode) (offset : ℕ) (max : ℤ) : Fs (ℕ × List Dirent) := do
  let p ← fat16WalkDir dir.ent.cluster readdirCb
    ⟨offset % 2 ^ 32, offset % 2 ^ 32, 0, max, []⟩
  pure (p.2.next, p.2.out)

end LizardOs.Fat
