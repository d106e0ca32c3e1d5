import LizardOs.Fat.LookOnly
import LizardOs.Fat.NameForm
import LizardOs.Vfs.Dentry

/-!
# FAT16 below the virtual file system

The tables `fat16_inode_ops` and `fat16_file_ops` of a mounted volume, which every inode of the volume has.  An inode is
known by a number that is given out once.  Nothing runs after a routine of the volume that does not return.  The volume
finds and makes 8.3 names only (`fatOps_shortNames`).
-/

namespace LizardOs.Vfs

open LizardOs.Lib LizardOs.Fat

def FAT16_NAME_MAX : ℕ := 13

/-- A mounted volume and the inodes that were made for it.  `clock` are the readings of `fat16_dos_now`, of which `ticks`
were taken; `hung` tells that a routine did not return. -/
structure Volume where
  fat : Fat16
  inodes : ℕ → Option Inode
  nextInode : ℕ
  clock : ℕ → DosStamp
  ticks : ℕ
  hung : Bool

namespace Volume

/-- What `fat16_mount_fs` leaves: the root is inode 0. -/
def mounted (fat : Fat16) (clock : ℕ → DosStamp) : Volume :=
  ⟨fat, Function.update (fun _ => none) 0 (some rootInode), 1, clock, 0, false⟩

/-- Run a routine of the volume. -/
def run {α : Type} (v : Volume) (p : Fs α) : Option α × Volume :=
  if v.hung = true then (none, v)
  else
    match p v.fat with
    | none => (none, { v with hung := true })
    | some (a, fat) => (some a, { v with fat := fat })

/-- Run a routine that takes the time. -/
def runAt {α : Type} (v : Volume) (p : DosStamp → Fs α) : Option α × Volume :=
  { v with ticks := v.ticks + 1 }.run (p (v.clock v.ticks))

/-- What the virtual file system sees of a routine that makes an inode. -/
def made : Option (Option Inode) × Volume → ℤ × Option ℕ × Volume
  | (some (some ino), v) =>
      (0, some v.nextInode,
        { v with
          inodes := Function.update v.inodes v.nextInode (some ino)
          nextInode := v.nextInode + 1 })
  | (_, v) => (-1, none, v)

/-- What it sees of a routine that succeeds or fails. -/
def code : Option Bool × Volume → ℤ × Volume
  | (some true, v) => (0, v)
  | (_, v) => (-1, v)

/-- What it sees of a routine that changes its inode. -/
def changed (i : ℕ) : Option (ℤ × Inode) × Volume → ℤ × Volume
  | (some (rc, ino), v) => (rc, { v with inodes := Function.update v.inodes i (some ino) })
  | (none, v) => (-1, v)

end Volume

/-- `fat16_inode_ops` and `fat16_file_ops`. -/
def fatOps : FsOps Volume ℕ where
  zalloc v := ((v.run Fat.zalloc).1.getD false, (v.run Fat.zalloc).2)
  size v i := ((v.inodes i).map fun ino => ino.size).getD 0
  mode v i := ((v.inodes i).map fun ino => ino.mode).getD 0
  lookup i := some fun v name =>
    match v.inodes i with
    | none => (-1, none, v)
    | some dir => Volume.made (v.run (fat16Lookup dir name))
  create i := some fun v name _ =>
    match v.inodes i with
    | none => (-1, none, v)
    | some dir => Volume.made (v.runAt fun now => fat16Create now dir name)
  mkdir i := some fun v name _ =>
    match v.inodes i with
    | none => (-1, none, v)
    | some dir => Volume.made (v.runAt fun now => fat16Mkdir now dir name)
  unlink i := some fun v name =>
    match v.inodes i with
    | none => (-1, v)
    | some dir => Volume.code (v.run (fat16Unlink dir name))
  rmdir i := some fun v name =>
    match v.inodes i with
    | none => (-1, v)
    | some dir => Volume.code (v.run (fat16Rmdir dir name))
  truncate i := some fun v length =>
    match v.inodes i with
    | none => (-1, v)
    | some ino => Volume.changed i (v.runAt fun now => fat16Truncate now ino length)
  fileOpen _ := some fun v _ => (0, v)
  read i := some fun v buf count offset =>
    match v.inodes i with
    | none => (-1, buf, v)
    | some ino =>
        match v.run (fat16Read ino buf count offset) with
        | (some (n, buf), v) => (n, buf, v)
        | (none, v) => (-1, buf, v)
  write i := some fun v buf count offset =>
    match v.inodes i with
    | none => (-1, v)
    | some ino => Volume.changed i (v.runAt fun now => fat16Write now ino buf count offset)
  readdir i := some fun v offset max =>
    match v.inodes i with
    | none => (offset, 0, v)
    | some dir =>
        match v.run (fat16Readdir dir offset max) with
        | (some (next, out), v) => (next, out.length, v)
        | (none, v) => (offset, 0, v)
  fileRelease _ := some fun v => v

/-! ### Which names there are -/

theorem skipSlashes_of_noSlash {name : CStr} (h : 47 ∉ name) : skipSlashes name = name := by
  cases name with
  | nil => rfl
  | cons c name =>
    have hc : ¬(decide (c = 0x2F) = true) := by
      rw [decide_eq_true_eq]
      rintro rfl
      exact h List.mem_cons_self
    exact List.dropWhile_cons_of_neg hc

/-- A rendered name is short. -/
theorem fat16NameToStr_length (name : Vector UInt8 8) (ext : Vector UInt8 3) :
    (fat16NameToStr name ext).length < FAT16_NAME_MAX := by
  have hname := List.length_filter_le (fun c : UInt8 => decide (c ≠ 0x20)) name.toList
  have hext := List.length_filter_le (fun c : UInt8 => decide (c ≠ 0x20)) ext.toList
  rw [Vector.length_toList] at hname hext
  rw [fat16NameToStr, List.length_append, FAT16_NAME_MAX]
  split
  · rw [List.length_cons]
    omega
  · rw [List.length_nil]
    omega

theorem zero_not_mem_nameToStr {e : Fat16Directory} (h : fat16EntryValid e = true) :
    0 ∉ fat16NameToStr e.name e.extension := by
  have hprintable : e.name.toList.all printable = true ∧ e.extension.toList.all printable = true := by
    rw [fat16EntryValid] at h
    split at h
    · cases h
    · split at h
      · cases h
      · split at h
        · cases h
        · exact Bool.and_eq_true_iff.mp h
  intro hmem
  rw [fat16NameToStr, List.mem_append] at hmem
  rcases hmem with hmem | hmem
  · exact zero_not_mem_of_printable hprintable.1 (List.mem_filter.mp hmem).1
  · split at hmem
    · rcases List.mem_cons.mp hmem with hmem | hmem
      · exact absurd hmem (by decide)
      · exact zero_not_mem_of_printable hprintable.2 (List.mem_filter.mp hmem).1
    · cases hmem

/-- A name that an entry in use answers to is short. -/
theorem length_of_nameCmp {name : CStr} {e : Fat16Directory} (hvalid : fat16EntryValid e = true)
    (hcmp : fat16NameCmp name e = 0) (hslash : 47 ∉ name) (hzero : 0 ∉ name) : name.length < FAT16_NAME_MAX := by
  rw [fat16NameCmp, skipSlashes_of_noSlash hslash, strcasecmp_eq_zero hzero (zero_not_mem_nameToStr hvalid)] at hcmp
  have hlen := congrArg List.length hcmp
  rw [List.length_map, List.length_map] at hlen
  rw [hlen]
  exact fat16NameToStr_length e.name e.extension

/-- **`fat16_lookup`** finds short names only. -/
theorem fat16Lookup_short {dir ino : Inode} {name : CStr} {fs fs' : Fat16}
    (h : fat16Lookup dir name fs = some (some ino, fs')) (hslash : 47 ∉ name) (hzero : 0 ∉ name) :
    name.length < FAT16_NAME_MAX := by
  have hcb : Looks.Callback fs (lookupCb name) fun ctx => ∀ ino, ctx = some ino → name.length < FAT16_NAME_MAX := by
    intro off loc ctx hctx
    refine Looks.ite (fun _ => Looks.pure hctx) fun hvalid => ?_
    refine Looks.ite (fun _ => Looks.pure hctx) fun hcmp => ?_
    refine (Looks.fat16MakeInode _ loc).bind fun r _ => ?_
    cases r with
    | none => exact Looks.pure hctx
    | some ino =>
      rw [Bool.not_eq_false] at hvalid
      exact Looks.pure fun _ _ => length_of_nameCmp hvalid (not_not.mp hcmp) hslash hzero
  have hlook : Looks fs (fat16Lookup dir name) fun r => ∀ ino, r = some ino → name.length < FAT16_NAME_MAX := by
    refine (Looks.fat16WalkDir hcb dir.ent.cluster fun ino h => by cases h).bind fun p hp => Looks.pure fun ino hino => ?_
    split at hino
    · exact hp ino hino
    · cases hino
  exact (hlook fs _ fs' (SameVolume.refl fs) h).2 ino rfl

/-- A name that makes an entry is short. -/
theorem fat16FillEntry_short {now : DosStamp} {name : CStr} {attr : UInt8} {ent : Fat16Directory}
    (h : fat16FillEntry now name attr = some ent) (hslash : 47 ∉ name) : name.length < FAT16_NAME_MAX := by
  obtain ⟨b, e, hparts, -⟩ := fat16FillEntry_parts h
  have hbase := hparts.base_le
  have hext := hparts.ext_le
  have hsplit := hparts.split
  rw [skipSlashes_of_noSlash hslash] at hsplit
  rw [FAT16_NAME_MAX]
  rcases hsplit with ⟨rfl, -⟩ | rfl
  · omega
  · rw [List.length_append, List.length_cons]
    omega

/-- **`fat16_create`** makes short names only. -/
theorem fat16Create_short {now : DosStamp} {dir ino : Inode} {name : CStr} {fs fs' : Fat16}
    (h : fat16Create now dir name fs = some (some ino, fs')) (hslash : 47 ∉ name) : name.length < FAT16_NAME_MAX := by
  obtain ⟨fs₁, fs₂, -, h⟩ := Prog.bind_eq_some.mp h
  split at h
  · cases h
  · cases hfill : fat16FillEntry now name FAT16_ATTR_ARCHIVE with
    | none =>
      rw [hfill] at h
      cases h
    | some ent => exact fat16FillEntry_short hfill hslash

/-- **`fat16_mkdir`** makes short names only. -/
theorem fat16Mkdir_short {now : DosStamp} {dir ino : Inode} {name : CStr} {fs fs' : Fat16}
    (h : fat16Mkdir now dir name fs = some (some ino, fs')) (hslash : 47 ∉ name) : name.length < FAT16_NAME_MAX := by
  obtain ⟨fs₁, fs₂, -, h⟩ := Prog.bind_eq_some.mp h
  split at h
  · cases h
  · cases hfill : fat16FillEntry now name FAT16_ATTR_DIRECTORY with
    | none =>
      rw [hfill] at h
      cases h
    | some ent => exact fat16FillEntry_short hfill hslash

/-- The file system neither finds nor makes a name that fills the buffer of a walk. -/
structure ShortNames {φ ι : Type} (ops : FsOps φ ι) : Prop where
  lookup : ∀ i op fs name, ops.lookup i = some op → (op fs name).1 = 0 → 47 ∉ name → 0 ∉ name →
    name.length < NAME_MAX - 1
  create : ∀ i op fs name mode, ops.create i = some op → (op fs name mode).1 = 0 → 47 ∉ name →
    name.length < NAME_MAX - 1
  mkdir : ∀ i op fs name mode, ops.mkdir i = some op → (op fs name mode).1 = 0 → 47 ∉ name →
    name.length < NAME_MAX - 1

/-- A routine that made an inode returned. -/
theorem Volume.returned_of_made {v v' : Volume} {i : ℕ} {p : Inode → Fs (Option Inode)}
    (h : (match v.inodes i with
      | none => ((-1, none, v) : ℤ × Option ℕ × Volume)
      | some dir => made (v'.run (p dir))).1 = 0) : ∃ dir ino fat, p dir v'.fat = some (some ino, fat) := by
  cases hdir : v.inodes i with
  | none =>
    rw [hdir] at h
    cases h
  | some dir =>
    rw [hdir] at h
    simp only [run] at h
    split at h
    · cases h
    · split at h
      · cases h
      · rename_i a fat hrun
        cases a with
        | none => cases h
        | some ino => exact ⟨dir, ino, fat, hrun⟩

theorem lt_of_lt_nameMax {n : ℕ} (h : n < FAT16_NAME_MAX) : n < NAME_MAX - 1 := by
  rw [FAT16_NAME_MAX] at h
  rw [NAME_MAX]
  omega

/-- **The names of a volume are short.** -/
theorem fatOps_shortNames : ShortNames fatOps where
  lookup i op v name hop hrc hslash hzero := by
    obtain rfl := Option.some.inj hop
    obtain ⟨dir, ino, fat, hrun⟩ := Volume.returned_of_made hrc
    exact lt_of_lt_nameMax (fat16Lookup_short hrun hslash hzero)
  create i op v name mode hop hrc hslash := by
    obtain rfl := Option.some.inj hop
    obtain ⟨dir, ino, fat, hrun⟩ := Volume.returned_of_made hrc
    exact lt_of_lt_nameMax (fat16Create_short hrun hslash)
  mkdir i op v name mode hop hrc hslash := by
    obtain rfl := Option.some.inj hop
    obtain ⟨dir, ino, fat, hrun⟩ := Volume.returned_of_made hrc
    exact lt_of_lt_nameMax (fat16Mkdir_short hrun hslash)

end LizardOs.Vfs
