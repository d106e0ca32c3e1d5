import LizardOs.Lib.Steps
import LizardOs.Sched.Alive
import LizardOs.Syscall.Tables
import LizardOs.Vfs.RefCounts

/-!
# What a task leaves behind

The tasks of the scheduler with the files they have open and the mode of the keyboard.  A user task ends by `sys_exit`,
which closes its files and gives the keyboard back, or by an exception, which does neither.  A task that is not alive
holds no descriptor and has not left the keyboard raw, as long as no exception kills one that does.
-/

namespace LizardOs.Syscall

open LizardOs.Lib LizardOs.Sched LizardOs.Vfs

/-- The tasks, their files, and the keyboard.  `rawBy` are the tasks that have switched it to raw mode since it was last
switched back. -/
structure Machine (φ ι : Type) where
  kernel : Kernel
  files : FileState φ ι
  kbdRaw : Bool
  rawBy : List ℕ

/-- A step of the kernel, a system call of the running task, an exception in it, or what `spawn` does with files when
`init` calls it: the path is its own, and the rest is as in a call of `sys_spawn`. -/
inductive Event where
  | kernel (a : Action)
  | call (c : FileCall)
  | spawn (path : Name) (child : ℕ) (places : List (ℕ × ℕ))
  | keyGet
  | sysExit (code : ℤ)
  | exception (vec : ℕ)

/-- The action is `task_exit`. -/
def isTaskExit : Action → Bool
  | .exit _ => true
  | _ => false

/-- The call is `exit`, which is a step of its own here. -/
def FileCall.isExit : FileCall → Bool
  | .exit => true
  | _ => false

variable {φ ι : Type} (ops : FsOps φ ι)

namespace Machine

/-- A user task is running. -/
def UserRuns (m : Machine φ ι) : Prop := m.kernel.me.state = .running ∧ m.kernel.me.isUser = true

instance (m : Machine φ ι) : Decidable m.UserRuns := inferInstanceAs (Decidable (_ ∧ _))

/-- A task of the kernel itself is running. -/
def KernelRuns (m : Machine φ ι) : Prop := m.kernel.me.state = .running ∧ m.kernel.me.isUser = false

instance (m : Machine φ ι) : Decidable m.KernelRuns := inferInstanceAs (Decidable (_ ∧ _))

/-- `keyboard_set_raw`, called by the current task. -/
def keyboardSetRaw (m : Machine φ ι) (on : Bool) : Machine φ ι :=
  { m with kbdRaw := on, rawBy := if on = true then m.kernel.current :: m.rawBy else [] }

/-- `task_exit` of the current task, with the code that was stored before. -/
def taskExit (m : Machine φ ι) (code : ℤ) : Machine φ ι := { m with kernel := m.kernel.exitWith code }

/-- Run one step.  `task_exit` is called by `init`, which is no user task, and at the end of `sys_exit`; the exception
handler lets an exception of a user task return into it, and stops the kernel otherwise. -/
def exec (m : Machine φ ι) : Event → Option (Machine φ ι)
  | .kernel a =>
      if isTaskExit a = true ∧ m.kernel.me.isUser = true then none
      else (m.kernel.exec a).map fun k => { m with kernel := k }
  | .call c =>
      if m.UserRuns ∧ c.isExit = false then some { m with files := m.files.exec ops m.kernel.current c } else none
  | .spawn path child places =>
      if m.KernelRuns then some { m with files := m.files.spawn ops m.kernel.current path child places } else none
  | .keyGet => if m.UserRuns then some (m.keyboardSetRaw true) else none
  | .sysExit code =>
      if m.UserRuns then
        some (({ m with files := m.files.taskCloseAllFds ops m.kernel.current }.keyboardSetRaw false).taskExit code)
      else none
  | .exception vec =>
      if m.UserRuns ∧ m.kernel.schedulerEnabled = true ∧ m.kernel.current ≠ idle then some (m.taskExit (-vec)) else none

/-- The steps as a relation. -/
def Step (m : Machine φ ι) (e : Event) (m' : Machine φ ι) : Prop := m.exec ops e = some m'

/-- The machine at the end of `kmain`. -/
def boot (b : BootTasks) (fs : φ) (inode : ι) : Machine φ ι where
  kernel := b.kmain
  files := ⟨VfsState.mounted fs inode, fun _ _ => none, fun _ => [47], []⟩
  kbdRaw := false
  rawBy := []

/-- The task holds no descriptor and has not left the keyboard raw. -/
def Clean (m : Machine φ ι) (t : ℕ) : Prop := (∀ i < TASK_MAX_FDS, m.files.fdTable t i = none) ∧ t ∉ m.rawBy

instance (m : Machine φ ι) (t : ℕ) : Decidable (m.Clean t) := inferInstanceAs (Decidable (_ ∧ _))

/-- An exception kills only a task that holds nothing. -/
def KillsClean (m : Machine φ ι) : Event → Prop
  | .exception _ => m.Clean m.kernel.current
  | _ => True

instance (m : Machine φ ι) : (e : Event) → Decidable (m.KillsClean e)
  | .kernel _ => .isTrue trivial
  | .call _ => .isTrue trivial
  | .spawn .. => .isTrue trivial
  | .keyGet => .isTrue trivial
  | .sysExit _ => .isTrue trivial
  | .exception _ => inferInstanceAs (Decidable (m.Clean m.kernel.current))

/-- **A dead task holds nothing**: every file it had in its table was closed once and is open no more when the reaper
has freed it, and the keyboard is in raw mode only on behalf of tasks that live. -/
structure Released (m : Machine φ ι) : Prop where
  files : ∀ t ∈ m.kernel.freed, ∀ id, (t, id) ∈ m.files.given →
    m.files.vfs.closed.count id = 1 ∧ id ∉ m.files.openIds
  keyboard : ∀ t ∈ m.rawBy, t ∉ m.kernel.freed ∧ (m.kernel.tasks t).state ∉ [TaskState.zombie, .terminated]
  raw : m.kbdRaw = true → m.rawBy ≠ []

/-- What holds between steps. -/
structure Good (m : Machine φ ι) : Prop where
  core : m.kernel.Core
  tree : m.kernel.Tree
  tables : m.files.Tables
  dead : ∀ t, ¬m.kernel.Alive t → m.Clean t
  kernelTasks : ∀ t, (m.kernel.tasks t).isUser = false → m.Clean t
  raw : m.kbdRaw = true → m.rawBy ≠ []

variable {ops} {m m' : Machine φ ι} {t : ℕ}

theorem Good.released (h : Good m) : Released m := by
  have hgone : ∀ t ∈ m.kernel.freed, m.Clean t := fun t ht => h.dead t fun hal => (h.tree.freedGone t ht).1 hal.1
  refine ⟨fun t ht id hid => ?_, fun t ht => ⟨fun hf => (hgone t hf).2 ht, fun hst => ?_⟩, h.raw⟩
  · obtain ⟨⟨i, hi⟩, -⟩ | ⟨-, hcount, hopen⟩ := h.tables.once t id hid
    · have hnone := (hgone t ht).1 i (h.tables.slot t i id hi)
      rw [hnone] at hi
      cases hi
    · exact ⟨hcount, hopen⟩
  · refine (h.dead t fun hal => hal.2 ?_).2 ht
    simp only [List.mem_cons, List.not_mem_nil, or_false] at hst ⊢
    exact hst.imp_right .inl

/-! ### Steps -/

/-- The running task is alive. -/
theorem Good.current_alive (h : Good m) (hrun : m.kernel.me.state = .running) : m.kernel.Alive m.kernel.current := by
  refine ⟨h.core.current_mem, ?_⟩
  show m.kernel.me.state ∉ _
  rw [hrun]
  decide

/-- Nothing about files and the keyboard changes. -/
theorem Clean.of_same (h : m.Clean t) (hfiles : m'.files = m.files) (hraw : m'.rawBy = m.rawBy) : m'.Clean t := by
  rw [Clean, hfiles, hraw]
  exact h

/-- A step of the kernel that ends no task but one that holds nothing. -/
theorem Good.kernelStep {a : Action} {k' : Kernel} (h : Good m) (hstep : m.kernel.Step a k')
    (hclean : isTaskExit a = true → m.Clean m.kernel.current) : Good { m with kernel := k' } := by
  refine ⟨h.core.exec hstep, h.tree.exec h.core hstep, h.tables, fun t ht => ?_, fun t ht => ?_, h.raw⟩
  · refine Clean.of_same (m := m) ?_ rfl rfl
    by_cases hal : m.kernel.Alive t
    · by_cases htc : t = m.kernel.current
      · rw [htc]
        apply hclean
        -- had the step not been an exit, the task would live on
        by_contra hexit
        refine ht (hal.exec h.core h.tree hstep fun code hcode => ?_)
        rw [hcode] at hexit
        exact absurd rfl hexit
      · exact absurd (hal.exec h.core h.tree hstep fun _ _ => htc) ht
    · exact h.dead t hal
  · refine Clean.of_same (m := m) ?_ rfl rfl
    by_cases hnew : t = m.kernel.nextTask
    · rw [hnew]
      exact h.dead _ fun hal => h.core.nextTask_not_mem hal.1
    · apply h.kernelTasks t
      rw [← Kernel.isUser_of_exec h.core hstep hnew]
      exact ht

/-- The tables of other tasks stay as they are. -/
theorem Good.files {files : FileState φ ι} (h : Good m) (hruns : m.UserRuns) (htables : files.Tables)
    (hother : ∀ t ≠ m.kernel.current, files.fdTable t = m.files.fdTable t) : Good { m with files := files } := by
  have hclean : ∀ t ≠ m.kernel.current, m.Clean t → Clean { m with files := files } t := by
    intro t ht hc
    refine ⟨fun i hi => ?_, hc.2⟩
    show files.fdTable t i = none
    rw [hother t ht]
    exact hc.1 i hi
  refine ⟨h.core, h.tree, htables, fun t ht => hclean t ?_ (h.dead t ht), fun t ht => hclean t ?_ (h.kernelTasks t ht),
    h.raw⟩
  · rintro rfl
    exact ht (h.current_alive hruns.1)
  · rintro rfl
    exact absurd (hruns.2.symm.trans ht) nofun

/-- The tables of all tasks stay as they are. -/
theorem Good.kept {files : FileState φ ι} (h : Good m) (hkept : FileState.Kept m.files files) :
    Good { m with files := files } := by
  have hclean : ∀ t, m.Clean t → Clean { m with files := files } t := by
    intro t hc
    refine ⟨fun i hi => ?_, hc.2⟩
    show files.fdTable t i = none
    rw [hkept.table]
    exact hc.1 i hi
  exact ⟨h.core, h.tree, h.tables.moved (t := m.kernel.current) (.inl hkept), fun t ht => hclean t (h.dead t ht),
    fun t ht => hclean t (h.kernelTasks t ht), h.raw⟩

theorem Good.setRaw (h : Good m) (hruns : m.UserRuns) (on : Bool) : Good (m.keyboardSetRaw on) := by
  have hclean : ∀ t ≠ m.kernel.current, m.Clean t → (m.keyboardSetRaw on).Clean t := by
    intro t ht hc
    refine ⟨hc.1, ?_⟩
    show t ∉ if on = true then m.kernel.current :: m.rawBy else []
    split
    · exact List.not_mem_cons_of_ne_of_not_mem ht hc.2
    · exact List.not_mem_nil
  refine ⟨h.core, h.tree, h.tables, fun t ht => hclean t ?_ (h.dead t ht), fun t ht => hclean t ?_ (h.kernelTasks t ht),
    fun hon => ?_⟩
  · rintro rfl
    exact ht (h.current_alive hruns.1)
  · rintro rfl
    exact absurd (hruns.2.symm.trans ht) nofun
  · have hon : on = true := hon
    show (if on = true then m.kernel.current :: m.rawBy else []) ≠ []
    rw [if_pos hon]
    exact List.cons_ne_nil _ _

/-- The end of a task that holds nothing. -/
theorem Good.taskExit (h : Good m) (hruns : m.UserRuns) (hclean : m.Clean m.kernel.current) (code : ℤ) :
    Good (m.taskExit code) :=
  h.kernelStep (a := .exit code) (if_pos hruns.1) fun _ => hclean

/-- **One step** in which no exception kills a task that holds something. -/
theorem Good.exec {e : Event} (h : Good m) (hstep : m.Step ops e m') (hkills : m.KillsClean e) : Good m' := by
  cases e with
  | kernel a =>
    rw [Step, Machine.exec] at hstep
    obtain ⟨hnot, hmap⟩ := Option.ite_none_left_eq_some.mp hstep
    obtain ⟨k', hk, rfl⟩ := Option.map_eq_some_iff.mp hmap
    refine h.kernelStep hk fun hexit => ?_
    -- only a task of the kernel itself ends here
    apply h.kernelTasks
    rw [← Bool.not_eq_true]
    exact fun huser => hnot ⟨hexit, huser⟩
  | call c =>
    obtain ⟨⟨hruns, hc⟩, hsome⟩ := Option.ite_none_right_eq_some.mp hstep
    obtain rfl := Option.some.inj hsome
    have hmoved : FileState.Moved m.files m.kernel.current (m.files.exec ops m.kernel.current c) := by
      refine FileState.exec_moved h.tables m.kernel.current ?_
      rintro rfl
      cases hc
    exact h.files hruns (h.tables.moved hmoved) fun t ht => hmoved.table_of_ne ht
  | spawn path child places =>
    obtain ⟨-, hsome⟩ := Option.ite_none_right_eq_some.mp hstep
    obtain rfl := Option.some.inj hsome
    exact h.kept (FileState.spawn_kept h.tables m.kernel.current path child places)
  | keyGet =>
    obtain ⟨hruns, hsome⟩ := Option.ite_none_right_eq_some.mp hstep
    obtain rfl := Option.some.inj hsome
    exact h.setRaw hruns true
  | sysExit code =>
    obtain ⟨hruns, hsome⟩ := Option.ite_none_right_eq_some.mp hstep
    obtain rfl := Option.some.inj hsome
    obtain ⟨htables, hother, hempty⟩ := h.tables.taskCloseAllFds ops m.kernel.current
    have hfiles := h.files hruns htables hother
    exact (hfiles.setRaw hruns false).taskExit hruns ⟨hempty, List.not_mem_nil⟩ code
  | exception vec =>
    obtain ⟨⟨hruns, -⟩, hsome⟩ := Option.ite_none_right_eq_some.mp hstep
    obtain rfl := Option.some.inj hsome
    exact h.taskExit hruns hkills (-vec)

/-! ### Runs -/

theorem good_boot (b : BootTasks) (fs : φ) (inode : ι) : Good (boot b fs inode) where
  core := core_kmain b
  tree := tree_kmain b
  tables := ⟨nofun, List.nodup_nil, nofun, nofun, nofun, nofun, nofun, nofun⟩
  dead := fun _ _ => ⟨fun _ _ => rfl, List.not_mem_nil⟩
  kernelTasks := fun _ _ => ⟨fun _ _ => rfl, List.not_mem_nil⟩
  raw := nofun

/-- **Task death releases what the task held**, in every run in which no exception kills a task that has a descriptor
open or has left the keyboard raw. -/
theorem released_of_run {b : BootTasks} {fs : φ} {inode : ι} {l : List (Machine φ ι × Event)} {m : Machine φ ι}
    (hrun : Trace (Step ops) (boot b fs inode) l m) (hkills : ∀ x ∈ l, x.1.KillsClean x.2) : m.Released := by
  have hgood : Good m := by
    refine hrun.invariant (I := Good) (good_boot b fs inode) fun x hx m₂ hgood hstep => ?_
    exact hgood.exec hstep (hkills x hx)
  exact hgood.released

/-- Memory with the path `/a` at an address. -/
def slashA : Buf := fun j => if j = 0x1000 then 47 else if j = 0x1001 then 97 else 0

/-- `init` spawns a user task and waits for it, and the task runs. -/
def childRuns : List Event :=
  [.kernel .scheduler, .kernel (.taskCreate 0 true true childSpace), .kernel (.spawnJoin 2 0x400000 0x700000),
    .kernel (.block .child), .kernel .scheduler]

/-- `init` collects the task, and the reaper frees it. -/
def childFreed : List Event := [.kernel .scheduler, .kernel (.waitpid (-1)), .kernel .scheduler]

/-- The machine after the task has opened `/a`, closed it and died of a page fault. -/
def closedThenKilled : List Event :=
  childRuns ++ [.call (.open slashA 0x1000 O_CREAT.toUInt64), .call (.close 3), .exception 14] ++ childFreed

/-- The machine after the task has opened `/a` and died of a page fault. -/
def openThenKilled : List Event :=
  childRuns ++ [.call (.open slashA 0x1000 O_CREAT.toUInt64), .exception 14] ++ childFreed

/-- The task that was killed is freed, and its file is closed. -/
theorem released_of_run_closedThenKilled :
    let m := runLast (exec VfsState.emptyDir) (boot sampleBoot () ()) closedThenKilled
    m.kernel.freed = [2] ∧ m.files.given = [(2, 0)] ∧ m.Released := by
  have hsteps : (runSteps (exec VfsState.emptyDir) (boot sampleBoot () ()) closedThenKilled).isSome = true := by decide
  refine ⟨by decide, by decide, released_of_run (trace_runLast hsteps) ?_⟩
  decide

/-- A task that is killed with a file open is freed without closing it. -/
theorem released_not_of_run :
    ∃ l m, Trace (Step VfsState.emptyDir) (boot sampleBoot () ()) l m ∧ ¬m.Released := by
  have hsteps : (runSteps (exec VfsState.emptyDir) (boot sampleBoot () ()) openThenKilled).isSome = true := by decide
  refine ⟨_, _, trace_runLast hsteps, fun h => ?_⟩
  obtain ⟨hcount, -⟩ := h.files 2 (by decide) 0 (by decide)
  exact absurd hcount (by decide)

end Machine

end LizardOs.Syscall
