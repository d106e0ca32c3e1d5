import LizardOs.Lib.Steps
import LizardOs.Syscall.Files
import LizardOs.Vfs.RefCounts
import Mathlib.Data.List.GetD

/-!
# The working directory of a task

`task.cwd` is an array of `TASK_CWD_MAX` bytes.  `task_create` writes `/` into it, `spawn` copies the whole array of the
parent and `sys_chdir` copies a folded path with its terminator; what stands behind the terminator is whatever was there
before.  Between these steps the file system may change in any way.  `workingDir_of_run` says what holds in every state
of every such run.
-/

namespace LizardOs.Syscall

open LizardOs.Lib LizardOs.Vfs

/-! ### Strings in memory -/

theorem userStr_eq_some {mem : Buf} {s : Name} {n : ℕ} : ∀ {p : ℕ}, userStr mem p n = some s ↔
    s.length < n ∧ 0 ∉ s ∧ (∀ j (hj : j < s.length), mem (p + j) = s[j]) ∧ mem (p + s.length) = 0 := by
  induction n generalizing s with
  | zero =>
    intro p
    simp [userStr]
  | succ n ih =>
    intro p
    rw [userStr]
    by_cases hz : mem p = 0
    · rw [if_pos hz]
      constructor
      · intro h
        obtain rfl := Option.some.inj h
        exact ⟨by simp, by simp, by simp, hz⟩
      · rintro ⟨-, h0, hbytes, -⟩
        cases s with
        | nil => rfl
        | cons c s =>
          have hc := hbytes 0 (by simp)
          simp only [Nat.add_zero, List.getElem_cons_zero] at hc
          exact absurd (by simp [← hc, hz]) h0
    · rw [if_neg hz, Option.map_eq_some_iff]
      constructor
      · rintro ⟨t, ht, rfl⟩
        obtain ⟨hlen, h0, hbytes, hend⟩ := ih.mp ht
        refine ⟨by simp only [List.length_cons]; omega, ?_, ?_, ?_⟩
        · intro hmem
          rcases List.mem_cons.mp hmem with hmem | hmem
          · exact hz hmem.symm
          · exact h0 hmem
        · intro j hj
          cases j with
          | zero => rfl
          | succ j =>
            rw [List.getElem_cons_succ, ← hbytes j (by simpa using hj)]
            congr 1
            omega
        · rw [List.length_cons, ← hend]
          congr 1
          omega
      · rintro ⟨hlen, h0, hbytes, hend⟩
        cases s with
        | nil => exact absurd hend hz
        | cons c s =>
          have hc := hbytes 0 (by simp)
          simp only [Nat.add_zero, List.getElem_cons_zero] at hc
          refine ⟨s, ih.mpr ⟨by simp only [List.length_cons] at hlen; omega,
            fun hmem => h0 (List.mem_cons_of_mem _ hmem), ?_, ?_⟩, by rw [hc]⟩
          · intro j hj
            have hj' := hbytes (j + 1) (by simpa using hj)
            rw [List.getElem_cons_succ] at hj'
            rw [← hj']
            congr 1
            omega
          · rw [List.length_cons] at hend
            rw [← hend]
            congr 1
            omega

/-- The bytes of a string and its terminator. -/
def strBytes (s : Name) : Buf := fun j => s.getD j 0

/-- A string copied with its terminator reads back. -/
theorem userStr_splice (mem : Buf) (p : ℕ) {s : Name} {n : ℕ} (hs : 0 ∉ s) (hn : s.length < n) :
    userStr (splice mem p (strBytes s) (s.length + 1)) p n = some s := by
  rw [userStr_eq_some]
  refine ⟨hn, hs, ?_, ?_⟩
  · intro j hj
    rw [splice_inside (by omega), strBytes, List.getD_eq_getElem _ _ hj]
  · rw [splice_inside (by omega), strBytes, List.getD_eq_default _ _ (Nat.le_refl _)]

/-! ### The calls -/

/-- The working directories of the tasks there are. -/
structure WorkingDirs (φ ι : Type) where
  vfs : VfsState φ ι
  tasks : List ℕ
  cwd : ℕ → Buf

variable {φ ι : Type} (ops : FsOps φ ι)

namespace WorkingDirs

/-- `task_create`: the task's memory is zeroed and its working directory set to `/`. -/
def freshCwd : Buf := Function.update (Function.update (fun _ => 0) 0 47) 1 0

/-- The working directory of a child of `spawn`: the whole array of the parent, with the last byte cleared. -/
def inherit (parent : Buf) : Buf :=
  Function.update (splice freshCwd 0 parent TASK_CWD_MAX) (TASK_CWD_MAX - 1) 0

/-- `sys_chdir` of a task; `none` if the folding reads past the end of `cwd`. -/
def sysChdir (s : WorkingDirs φ ι) (t : ℕ) (mem : Buf) (upath : UInt64) : Option (ℤ × WorkingDirs φ ι) :=
  match copyUserStr mem upath TASK_CWD_MAX with
  | .error e => some (e, s)
  | .ok path =>
      match userStr (s.cwd t) 0 TASK_CWD_MAX with
      | none => none
      | some base =>
          match vfsResolvePath base path TASK_CWD_MAX with
          | none => some (-ENAMETOOLONG, s)
          | some abspath =>
              match FileState.probe ops s.vfs abspath with
              | (none, vfs) => some (-ENOENT, { s with vfs := vfs })
              | (some false, vfs) => some (-ENOTDIR, { s with vfs := vfs })
              | (some true, vfs) =>
                  let cwd := splice (s.cwd t) 0 (strBytes abspath) (abspath.length + 1)
                  some (0, { s with vfs := vfs, cwd := Function.update s.cwd t cwd })

/-- `sys_getcwd` of a task: the return value and the user's memory. -/
def sysGetcwd (s : WorkingDirs φ ι) (t : ℕ) (mem : Buf) (ubuf size : UInt64) : Option (ℤ × Buf) :=
  if long size ≤ 0 then some (-EINVAL, mem)
  else if userPtrOk ubuf size = false then some (-EFAULT, mem)
  else
    match userStr (s.cwd t) 0 TASK_CWD_MAX with
    | none => none
    | some path =>
        if size.toNat < path.length + 1 then some (-ERANGE, mem)
        else some (path.length, splice mem ubuf.toNat (s.cwd t) (path.length + 1))

/-- What happens to working directories: a task is created, a task spawns another (at boot there is no current task), a
task changes its directory, or the file system changes in some other way. -/
inductive Act (φ ι : Type) where
  | create (t : ℕ)
  | spawn (parent : Option ℕ) (child : ℕ)
  | chdir (t : ℕ) (mem : Buf) (upath : UInt64)
  | other (vfs : VfsState φ ι)

/-- A new task with its working directory. -/
def addTask (s : WorkingDirs φ ι) (t : ℕ) (cwd : Buf) : WorkingDirs φ ι :=
  { s with tasks := t :: s.tasks, cwd := Function.update s.cwd t cwd }

/-- One step; `none` if the task that acts does not exist, or the call runs out of bounds. -/
def exec (s : WorkingDirs φ ι) : Act φ ι → Option (WorkingDirs φ ι)
  | .create t => some (s.addTask t freshCwd)
  | .spawn none child => some (s.addTask child freshCwd)
  | .spawn (some parent) child =>
      if parent ∈ s.tasks then some (s.addTask child (inherit (s.cwd parent))) else none
  | .chdir t mem upath => if t ∈ s.tasks then (s.sysChdir ops t mem upath).map Prod.snd else none
  | .other vfs => some { s with vfs := vfs }

/-- Boot: no task yet. -/
def boot (vfs : VfsState φ ι) : WorkingDirs φ ι := ⟨vfs, [], fun _ _ => 0⟩

/-- Every task's `cwd` holds a canonical path. -/
def Clean (s : WorkingDirs φ ι) : Prop :=
  ∀ t ∈ s.tasks, ∃ path, userStr (s.cwd t) 0 TASK_CWD_MAX = some path ∧ Canonical path

/-! ### What one call does -/

variable {ops} {s s' : WorkingDirs φ ι} {t : ℕ} {mem : Buf}

theorem userStr_freshCwd : userStr freshCwd 0 TASK_CWD_MAX = some [47] := by
  rw [userStr_eq_some]
  refine ⟨by decide, by decide, ?_, by decide⟩
  intro j hj
  obtain rfl : j = 0 := by simpa using hj
  rfl

theorem canonical_root : Canonical [47] := canonical_iff.mpr ⟨by decide, .inl rfl⟩

/-- A terminated string survives the copy of the array. -/
theorem userStr_inherit {parent : Buf} {path : Name} (h : userStr parent 0 TASK_CWD_MAX = some path) :
    userStr (inherit parent) 0 TASK_CWD_MAX = some path := by
  obtain ⟨hlen, h0, hbytes, hend⟩ := userStr_eq_some.mp h
  rw [userStr_eq_some]
  simp only [TASK_CWD_MAX, Nat.zero_add] at *
  refine ⟨hlen, h0, ?_, ?_⟩
  · intro j hj
    rw [inherit, Function.update_of_ne (by simp only [TASK_CWD_MAX]; omega), TASK_CWD_MAX,
      splice_zero (by omega)]
    exact hbytes j hj
  · by_cases hlast : path.length = 127
    · rw [hlast]
      rfl
    · rw [inherit, Function.update_of_ne (by simp only [TASK_CWD_MAX]; omega), TASK_CWD_MAX,
        splice_zero (by omega)]
      exact hend

theorem copyUserStr_ok {upath : UInt64} {max : ℕ} {path : Name} (h : copyUserStr mem upath max = .ok path) :
    userPtrOk upath (UInt64.ofNat max) = true ∧ userStr mem upath.toNat max = some path := by
  unfold copyUserStr at h
  split at h
  · cases h
  · rename_i hok
    refine ⟨by simpa using hok, ?_⟩
    split at h
    · cases h
    · rename_i s hs
      rw [hs, Except.ok.inj h]

theorem copyUserStr_error {upath : UInt64} {max : ℕ} {e : ℤ} (h : copyUserStr mem upath max = .error e) :
    e ≠ 0 := by
  unfold copyUserStr at h
  split at h
  · obtain rfl := Except.error.inj h
    decide
  · split at h
    · obtain rfl := Except.error.inj h
      decide
    · cases h

/-- A folded path is a string that fits into `cwd`. -/
theorem folded_text {cwd : Buf} {base path abspath : Name} {upath : UInt64}
    (hbase : userStr cwd 0 TASK_CWD_MAX = some base) (hcopy : copyUserStr mem upath TASK_CWD_MAX = .ok path)
    (hres : vfsResolvePath base path TASK_CWD_MAX = some abspath) : 0 ∉ abspath ∧ abspath.length < TASK_CWD_MAX := by
  refine ⟨fun hmem => ?_, (vfsResolvePath_canonical (Nat.le_refl _) hres).bound⟩
  rcases mem_vfsResolvePath hres hmem with h | h | h
  · exact absurd h (by decide)
  · exact (userStr_eq_some.mp hbase).2.1 h
  · exact (userStr_eq_some.mp (copyUserStr_ok hcopy).2).2.1 h

/-- What `sys_chdir` does where `cwd` holds a string: it fails and leaves the directories alone, or the path it folded
led to a directory and is the new one. -/
theorem sysChdir_cases (ops : FsOps φ ι) {base : Name} (mem : Buf) (upath : UInt64)
    (hbase : userStr (s.cwd t) 0 TASK_CWD_MAX = some base) :
    ∃ r s', s.sysChdir ops t mem upath = some (r, s') ∧ s'.tasks = s.tasks ∧
      ((r ≠ 0 ∧ s'.cwd = s.cwd) ∨
        (r = 0 ∧ ∃ path abspath, userStr mem upath.toNat TASK_CWD_MAX = some path ∧
          vfsResolvePath base path TASK_CWD_MAX = some abspath ∧
          (FileState.probe ops s.vfs abspath).1 = some true ∧
          userStr (s'.cwd t) 0 TASK_CWD_MAX = some abspath ∧ ∀ u ≠ t, s'.cwd u = s.cwd u)) := by
  unfold sysChdir
  cases hcopy : copyUserStr mem upath TASK_CWD_MAX with
  | error e => exact ⟨e, s, rfl, rfl, .inl ⟨copyUserStr_error hcopy, rfl⟩⟩
  | ok path =>
    simp only [hbase]
    cases hres : vfsResolvePath base path TASK_CWD_MAX with
    | none => exact ⟨-ENAMETOOLONG, s, rfl, rfl, .inl ⟨by decide, rfl⟩⟩
    | some abspath =>
      have hpath := (copyUserStr_ok hcopy).2
      obtain ⟨hzero, hfits⟩ := folded_text hbase hcopy hres
      rcases hprobe : FileState.probe ops s.vfs abspath with ⟨found, vfs⟩
      simp only [hprobe]
      cases found with
      | none => exact ⟨-ENOENT, _, rfl, rfl, .inl ⟨by decide, rfl⟩⟩
      | some dir =>
        cases dir with
        | false => exact ⟨-ENOTDIR, _, rfl, rfl, .inl ⟨by decide, rfl⟩⟩
        | true =>
          refine ⟨0, _, rfl, rfl, .inr ⟨rfl, path, abspath, hpath, hres, by rw [hprobe], ?_, ?_⟩⟩
          · show userStr (Function.update s.cwd t _ t) 0 TASK_CWD_MAX = some abspath
            rw [Function.update_self]
            exact userStr_splice _ 0 hzero hfits
          · intro u hu
            exact Function.update_of_ne hu _ _

/-- The arrays hold the directories that the files of the tasks have as strings. -/
structure Represents (s : WorkingDirs φ ι) (f : FileState φ ι) : Prop where
  vfs : f.vfs = s.vfs
  cwd : ∀ t ∈ s.tasks, userStr (s.cwd t) 0 TASK_CWD_MAX = some (f.cwd t)

/-- **`sys_chdir` on arrays is `sys_chdir` on strings.** -/
theorem Represents.sysChdir {f : FileState φ ι} (h : s.Represents f) (ht : t ∈ s.tasks) (mem : Buf) (upath : UInt64) :
    ∃ s', s.sysChdir ops t mem upath = some ((f.sysChdir ops t mem upath).1, s') ∧ s'.tasks = s.tasks ∧
      s'.Represents (f.sysChdir ops t mem upath).2 := by
  have hbase := h.cwd t ht
  rw [WorkingDirs.sysChdir, FileState.sysChdir, FileState.userPath, pathFrom]
  cases hcopy : copyUserStr mem upath TASK_CWD_MAX with
  | error e => exact ⟨s, rfl, rfl, h⟩
  | ok path =>
    simp only [hbase]
    cases hres : vfsResolvePath (f.cwd t) path TASK_CWD_MAX with
    | none => exact ⟨s, rfl, rfl, h⟩
    | some abspath =>
      obtain ⟨hzero, hfits⟩ := folded_text hbase hcopy hres
      rcases hprobe : FileState.probe ops s.vfs abspath with ⟨found, vfs⟩
      simp only [h.vfs, hprobe]
      cases found with
      | none => exact ⟨_, rfl, rfl, rfl, h.cwd⟩
      | some dir =>
        cases dir with
        | false => exact ⟨_, rfl, rfl, rfl, h.cwd⟩
        | true =>
          refine ⟨_, rfl, rfl, rfl, fun u hu => ?_⟩
          show userStr (Function.update s.cwd t _ u) 0 TASK_CWD_MAX = some (Function.update f.cwd t _ u)
          by_cases hut : u = t
          · subst hut
            rw [Function.update_self, Function.update_self]
            exact userStr_splice _ 0 hzero hfits
          · rw [Function.update_of_ne hut, Function.update_of_ne hut]
            exact h.cwd u hu

/-- **A child inherits the string.** -/
theorem Represents.spawn {f : FileState φ ι} (h : s.Represents f) {parent child : ℕ} (hparent : parent ∈ s.tasks) :
    (s.addTask child (inherit (s.cwd parent))).Represents { f with cwd := Function.update f.cwd child (f.cwd parent) } := by
  refine ⟨h.vfs, fun t ht => ?_⟩
  show userStr (Function.update s.cwd child _ t) 0 TASK_CWD_MAX = some (Function.update f.cwd child _ t)
  by_cases htc : t = child
  · subst htc
    rw [Function.update_self, Function.update_self]
    exact userStr_inherit (h.cwd parent hparent)
  · rw [Function.update_of_ne htc, Function.update_of_ne htc]
    exact h.cwd t ((List.mem_cons.mp ht).resolve_left htc)

/-- What a probe that met a directory says about the path. -/
theorem probe_isDir {vfs : VfsState φ ι} {path : Name} (h : (FileState.probe ops vfs path).1 = some true) :
    ∃ d inode, (vfs.vfsPathLookup ops path).1 = some d ∧
      (vfs.vfsPathLookup ops path).2.inodeOf d = some inode ∧
      ops.mode (vfs.vfsPathLookup ops path).2.fs inode &&& S_IFDIR_MASK ≠ 0 := by
  unfold FileState.probe at h
  cases hlook : vfs.vfsPathLookup ops path with
  | mk found vfs' =>
    rw [hlook] at h
    cases found with
    | none => cases h
    | some d =>
      simp only [Option.some.injEq] at h
      cases hinode : vfs'.inodeOf d with
      | none => rw [hinode] at h; cases h
      | some inode =>
        rw [hinode] at h
        exact ⟨d, inode, rfl, hinode, of_decide_eq_true h⟩

/-- What a successful `sys_getcwd` leaves in the user's buffer. -/
theorem sysGetcwd_ok {path : Name} {ubuf size : UInt64} {n : ℤ} {mem' : Buf}
    (hpath : userStr (s.cwd t) 0 TASK_CWD_MAX = some path)
    (h : s.sysGetcwd t mem ubuf size = some (n, mem')) (hn : 0 ≤ n) :
    userStr mem' ubuf.toNat TASK_CWD_MAX = some path := by
  have herr : ¬0 ≤ -EINVAL ∧ ¬0 ≤ -EFAULT ∧ ¬0 ≤ -ERANGE := by decide
  unfold sysGetcwd at h
  rw [hpath] at h
  split at h
  · obtain ⟨rfl, -⟩ := Prod.mk.inj (Option.some.inj h)
    exact absurd hn herr.1
  · split at h
    · obtain ⟨rfl, -⟩ := Prod.mk.inj (Option.some.inj h)
      exact absurd hn herr.2.1
    · simp only at h
      split at h
      · obtain ⟨rfl, -⟩ := Prod.mk.inj (Option.some.inj h)
        exact absurd hn herr.2.2
      · obtain ⟨-, rfl⟩ := Prod.mk.inj (Option.some.inj h)
        obtain ⟨hlen, h0, hbytes, hend⟩ := userStr_eq_some.mp hpath
        rw [userStr_eq_some]
        refine ⟨hlen, h0, ?_, ?_⟩
        · intro j hj
          rw [splice_inside (by omega), ← hbytes j hj, Nat.zero_add]
        · rw [splice_inside (by omega), ← hend, Nat.zero_add]

/-! ### Runs -/

theorem Clean.addTask (h : s.Clean) {cwd : Buf} {path : Name}
    (hcwd : userStr cwd 0 TASK_CWD_MAX = some path) (hpath : Canonical path) : (s.addTask t cwd).Clean := by
  intro u hu
  by_cases hut : u = t
  · subst hut
    refine ⟨path, ?_, hpath⟩
    show userStr (Function.update s.cwd u cwd u) 0 TASK_CWD_MAX = some path
    rw [Function.update_self]
    exact hcwd
  · have hmem : u ∈ s.tasks := (List.mem_cons.mp hu).resolve_left hut
    show ∃ path, userStr (Function.update s.cwd t cwd u) 0 TASK_CWD_MAX = some path ∧ Canonical path
    rw [Function.update_of_ne hut]
    exact h u hmem

/-- **One step keeps every working directory canonical.** -/
theorem Clean.exec {a : Act φ ι} (h : s.Clean) (hstep : s.exec ops a = some s') : s'.Clean := by
  cases a with
  | create t =>
    obtain rfl := Option.some.inj hstep
    exact h.addTask userStr_freshCwd canonical_root
  | spawn parent child =>
    cases parent with
    | none =>
      obtain rfl := Option.some.inj hstep
      exact h.addTask userStr_freshCwd canonical_root
    | some parent =>
      rw [WorkingDirs.exec] at hstep
      split at hstep
      · rename_i hparent
        obtain rfl := Option.some.inj hstep
        obtain ⟨path, hpath, hcan⟩ := h parent hparent
        exact h.addTask (userStr_inherit hpath) hcan
      · cases hstep
  | chdir t mem upath =>
    rw [WorkingDirs.exec] at hstep
    split at hstep
    · rename_i ht
      obtain ⟨base, hbase, -⟩ := h t ht
      obtain ⟨r, s₁, hrun, htasks, hcases⟩ := sysChdir_cases ops mem upath hbase
      rw [hrun] at hstep
      obtain rfl := Option.some.inj hstep
      show s₁.Clean
      rcases hcases with ⟨-, hcwd⟩ | ⟨-, path, abspath, -, hres, -, hnew, hother⟩
      · intro u hu
        rw [hcwd]
        exact h u (htasks ▸ hu)
      · intro u hu
        by_cases hut : u = t
        · subst hut
          exact ⟨abspath, hnew, vfsResolvePath_canonical (Nat.le_refl _) hres⟩
        · rw [hother u hut]
          exact h u (htasks ▸ hu)
    · cases hstep
  | other vfs =>
    obtain rfl := Option.some.inj hstep
    exact h

theorem Clean.of_run {vfs₀ : VfsState φ ι}
    (hrun : Reaches (fun s a s' => WorkingDirs.exec ops s a = some s') (boot vfs₀) s) : s.Clean :=
  hrun.invariant (fun _ ht => absurd ht List.not_mem_nil) fun _ _ _ h hstep => h.exec hstep

/-- **Working directories stay canonical** in every run, and `sys_chdir` moves to directories only.  A path that
`sys_getcwd` delivered leads back to where it was taken, from any state in which it leads anywhere. -/
theorem workingDir_of_run {vfs₀ : VfsState φ ι}
    (hrun : Reaches (fun s a s' => WorkingDirs.exec ops s a = some s') (boot vfs₀) s) (ht : t ∈ s.tasks) :
    ∃ cwd, userStr (s.cwd t) 0 TASK_CWD_MAX = some cwd ∧ Canonical cwd ∧
      (∀ mem upath, ∃ r s', s.sysChdir ops t mem upath = some (r, s') ∧
        (r ≠ 0 → s'.cwd = s.cwd) ∧
        (r = 0 → (∀ u ≠ t, s'.cwd u = s.cwd u) ∧
          ∃ path d inode, userStr (s'.cwd t) 0 TASK_CWD_MAX = some path ∧
            (s.vfs.vfsPathLookup ops path).1 = some d ∧
            (s.vfs.vfsPathLookup ops path).2.inodeOf d = some inode ∧
            ops.mode (s.vfs.vfsPathLookup ops path).2.fs inode &&& S_IFDIR_MASK ≠ 0)) ∧
      ∀ mem ubuf size n mem', s.sysGetcwd t mem ubuf size = some (n, mem') → 0 ≤ n →
        ∀ (s₁ s₂ : WorkingDirs φ ι) (u : ℕ), s₁.sysChdir ops u mem' ubuf = some (0, s₂) →
          userStr (s₂.cwd u) 0 TASK_CWD_MAX = some cwd := by
  obtain ⟨cwd, hcwd, hcan⟩ := Clean.of_run hrun t ht
  refine ⟨cwd, hcwd, hcan, ?_, ?_⟩
  · intro mem upath
    obtain ⟨r, s', hch, -, hcases⟩ := sysChdir_cases ops mem upath hcwd
    refine ⟨r, s', hch, ?_, ?_⟩
    · intro hr
      rcases hcases with ⟨-, hsame⟩ | ⟨h0, -⟩
      · exact hsame
      · exact absurd h0 hr
    · intro hr
      rcases hcases with ⟨h0, -⟩ | ⟨-, path, abspath, -, -, hprobe, hnew, hother⟩
      · exact absurd hr h0
      · obtain ⟨d, inode, h1, h2, h3⟩ := probe_isDir hprobe
        exact ⟨hother, abspath, d, inode, hnew, h1, h2, h3⟩
  · intro mem ubuf size n mem' hget hn s₁ s₂ u hch
    have hstr := sysGetcwd_ok hcwd hget hn
    cases hbase : userStr (s₁.cwd u) 0 TASK_CWD_MAX with
    | none =>
      unfold sysChdir at hch
      rw [hbase] at hch
      cases hcopy : copyUserStr mem' ubuf TASK_CWD_MAX with
      | error e =>
        rw [hcopy] at hch
        obtain ⟨rfl, -⟩ := Prod.mk.inj (Option.some.inj hch)
        exact absurd rfl (copyUserStr_error hcopy)
      | ok path =>
        rw [hcopy] at hch
        cases hch
    | some base =>
      obtain ⟨r, s', hch', -, hcases⟩ := sysChdir_cases ops mem' ubuf hbase
      rw [hch] at hch'
      obtain ⟨rfl, rfl⟩ := Prod.mk.inj (Option.some.inj hch')
      rcases hcases with ⟨h0, -⟩ | ⟨-, path, abspath, hpath, hres, -, hnew, -⟩
      · exact absurd rfl h0
      · obtain rfl := Option.some.inj (hstr.symm.trans hpath)
        rw [vfsResolvePath_of_canonical base hcan] at hres
        obtain rfl := Option.some.inj hres
        exact hnew

/-- A file system in which every name is a directory. -/
def allDirs : FsOps Unit Unit where
  zalloc fs := (true, fs)
  size _ _ := 0
  mode _ _ := 0o40777
  lookup _ := some fun fs _ => (0, some (), fs)
  create _ := none
  mkdir _ := none
  unlink _ := none
  rmdir _ := none
  truncate _ := none
  fileOpen _ := none
  read _ := none
  write _ := none
  readdir _ := none
  fileRelease _ := none

/-- User memory with the path `a/../b` at address `8`. -/
def pathMem : Buf := fun p => [97, 47, 46, 46, 47, 98].getD (p - 8) 0

/-- The first task with a child that it spawned after it moved to `/b`. -/
theorem workingDir_of_run_moved : ∃ s : WorkingDirs Unit Unit,
    Reaches (fun s a s' => WorkingDirs.exec allDirs s a = some s') (boot (VfsState.mounted () ())) s ∧
      userStr (s.cwd 2) 0 TASK_CWD_MAX = some [47, 98] ∧ Canonical [47, 98] := by
  have h1 : Reaches (fun s a s' => WorkingDirs.exec allDirs s a = some s') (boot (VfsState.mounted () ()))
      ((boot (VfsState.mounted () ())).addTask 1 freshCwd) :=
    .next (a := .create 1) .start rfl
  have hmoved : (((boot (VfsState.mounted () ())).addTask 1 freshCwd).sysChdir allDirs 1 pathMem 8).map
      (fun p => (p.2.tasks, userStr (p.2.cwd 1) 0 TASK_CWD_MAX)) = some ([1], some [47, 98]) := by
    decide
  obtain ⟨⟨r, s⟩, hch, heq⟩ := Option.map_eq_some_iff.mp hmoved
  obtain ⟨htasks, hcwd⟩ := Prod.mk.inj heq
  have hmem : 1 ∈ s.tasks := htasks ▸ List.mem_singleton_self 1
  have hexec : WorkingDirs.exec allDirs ((boot (VfsState.mounted () ())).addTask 1 freshCwd) (.chdir 1 pathMem 8) =
      some s := by
    rw [WorkingDirs.exec, if_pos (by simp [addTask]), hch]
    rfl
  have hspawn : WorkingDirs.exec allDirs s (.spawn (some 1) 2) = some (s.addTask 2 (inherit (s.cwd 1))) := by
    rw [WorkingDirs.exec, if_pos hmem]
  have h3 := (h1.next hexec).next hspawn
  have hchild : userStr ((s.addTask 2 (inherit (s.cwd 1))).cwd 2) 0 TASK_CWD_MAX = some [47, 98] := by
    show userStr (Function.update s.cwd 2 _ 2) 0 TASK_CWD_MAX = some [47, 98]
    rw [Function.update_self]
    exact userStr_inherit hcwd
  obtain ⟨cwd, hcwd', hcan, -⟩ := workingDir_of_run h3 (show 2 ∈ (s.addTask 2 _).tasks by simp [addTask])
  obtain rfl := Option.some.inj (hchild.symm.trans hcwd')
  exact ⟨_, h3, hchild, hcan⟩

end WorkingDirs

end LizardOs.Syscall
