import LizardOs.Sched.Task

/-!
# The system of tasks

The steps the kernel takes between two instructions of different tasks: interrupt entries, timer ticks, the
scheduler, and the calls a running task makes.  `exec` runs one step, and refuses a step its caller could not
take.  Calls that end with a reschedule are split before it, and `spawn` is split where it loads the image, so
that a preemptible caller is covered as well.

Most steps only wake or block tasks; `Calm` says all that such a step can do.
-/

namespace LizardOs.Sched

open LizardOs.Lib

/-- A step of the system. -/
inductive Action where
  | entry (frame : CpuState)
  | taskCreate (entryPoint : ℕ) (isUser onHeap : Bool) (space : AddrSpace)
  | taskSetReady (t : ℕ)
  | spawnJoin (t rip rsp : ℕ)
  | spawnFail (t : ℕ)
  | exit (code : ℤ)
  | waitpid (pid : ℤ)
  | block (waitKind : WaitKind)
  | sleep (ms : ℕ)
  | wake (t : ℕ)
  | wakeAll (waitKind : WaitKind)
  | tick
  | scheduler

/-- The steps that only wake, block and publish a frame. -/
def Action.IsCalm : Action → Prop
  | .entry _ => True
  | .taskSetReady _ => True
  | .block _ => True
  | .sleep _ => True
  | .wake _ => True
  | .wakeAll _ => True
  | .tick => True
  | _ => False

namespace Kernel

/-- Run a step.  What the current task does it does while it runs; `spawn` and `task_waitpid` are called by
`init` and by system calls, so never by `idle`, and `task_sleep` only by a system call. -/
def exec (k : Kernel) : Action → Option Kernel
  | .entry frame => some { k with frame := frame }
  | .taskCreate entryPoint isUser onHeap space =>
      if k.me.state = .running then some (k.taskCreate entryPoint isUser onHeap space) else none
  | .taskSetReady t => if t ∈ k.taskList then some (k.taskSetReady t) else none
  | .spawnJoin t rip rsp =>
      if k.me.state = .running ∧ k.current ≠ idle ∧ t ∈ k.taskList ∧ (k.tasks t).state = .new then
        some (k.spawnJoin t rip rsp).2
      else none
  | .spawnFail t =>
      if k.me.state = .running ∧ t ∈ k.taskList ∧ (k.tasks t).state = .new then some (k.spawnFail t).2
      else none
  | .exit code => if k.me.state = .running then some (k.exitWith code) else none
  | .waitpid pid =>
      if k.me.state = .running ∧ k.current ≠ idle then some (k.taskWaitpid pid).2 else none
  | .block waitKind => if k.me.state = .running then some (k.taskBlock waitKind) else none
  | .sleep ms => if k.me.state = .running ∧ k.me.isUser = true then some (k.taskSleep ms) else none
  | .wake t => if t ∈ k.taskList then some (k.taskWake t) else none
  | .wakeAll waitKind => some (k.taskWakeAll waitKind)
  | .tick => some ({ k with pitTicks := (k.pitTicks + 1) % 2 ^ 64 } : Kernel).taskTick
  | .scheduler => some k.scheduler

theorem of_guard {p : Prop} [Decidable p] {x y : Kernel} (h : (if p then some x else none) = some y) :
    p ∧ x = y := by
  obtain ⟨hp, hxy⟩ := Option.ite_none_right_eq_some.mp h
  exact ⟨hp, Option.some.inj hxy⟩

/-- The steps as a relation. -/
def Step (k : Kernel) (a : Action) (k' : Kernel) : Prop := k.exec a = some k'

/-- Take steps one after another, and give the states passed with the steps taken there. -/
def steps (k : Kernel) (as : List Action) : Option (List (Kernel × Action) × Kernel) := runSteps exec k as

/-- The states passed, and the last one, of steps that can all be taken. -/
def passed (k : Kernel) (as : List Action) : List (Kernel × Action) := runPassed exec k as

def last (k : Kernel) (as : List Action) : Kernel := runLast exec k as

theorem trace_last {k : Kernel} {as : List Action} (h : (k.steps as).isSome = true) :
    Trace Step k (k.passed as) (k.last as) := trace_runLast h

end Kernel

/-- What boot decides: the memory of the first two tasks, and the registers at the end of `kmain`. -/
structure BootTasks where
  idleSpace : AddrSpace
  initSpace : AddrSpace
  idleFunc : ℕ
  initLoop : ℕ
  kernelPml4 : ℕ
  rsp0 : ℕ
  frame : CpuState
  pitTicks : ℕ

/-- No task yet. -/
def BootTasks.none (b : BootTasks) : Kernel where
  tasks := fun _ => ⟨0, 0, .running, .none, false, false, .zero, 0, 0, Option.none, [], false, 0, 0⟩
  nextTask := 0
  taskList := []
  current := idle
  pidCounter := 0
  pitTicks := b.pitTicks
  schedulerEnabled := false
  frame := b.frame
  currentPml4 := b.kernelPml4
  tssRsp0 := b.rsp0
  freed := []

/-- `sched_init`. -/
def BootTasks.schedInit (b : BootTasks) : Kernel :=
  (b.none.taskCreate b.idleFunc false false b.idleSpace).setTask idle fun t => { t with state := .running }

/-- `kmain`, from the initcalls on. -/
def BootTasks.kmain (b : BootTasks) : Kernel :=
  let k := b.schedInit.taskCreate b.initLoop false false b.initSpace
  { k.taskSetReady 1 with schedulerEnabled := true }

namespace Kernel

variable {k k' : Kernel} {t x c n : ℕ}

@[simp] theorem setTask_taskList (k : Kernel) (t : ℕ) (f : Task → Task) :
    (k.setTask t f).taskList = k.taskList := rfl

@[simp] theorem setTask_current (k : Kernel) (t : ℕ) (f : Task → Task) :
    (k.setTask t f).current = k.current := rfl

@[simp] theorem setTask_nextTask (k : Kernel) (t : ℕ) (f : Task → Task) :
    (k.setTask t f).nextTask = k.nextTask := rfl

@[simp] theorem setTask_freed (k : Kernel) (t : ℕ) (f : Task → Task) :
    (k.setTask t f).freed = k.freed := rfl

@[simp] theorem setTask_enabled (k : Kernel) (t : ℕ) (f : Task → Task) :
    (k.setTask t f).schedulerEnabled = k.schedulerEnabled := rfl

@[simp] theorem setTask_frame (k : Kernel) (t : ℕ) (f : Task → Task) :
    (k.setTask t f).frame = k.frame := rfl

@[simp] theorem setTask_pitTicks (k : Kernel) (t : ℕ) (f : Task → Task) :
    (k.setTask t f).pitTicks = k.pitTicks := rfl

@[simp] theorem setTask_self (k : Kernel) (t : ℕ) (f : Task → Task) :
    (k.setTask t f).tasks t = f (k.tasks t) := Function.update_self ..

theorem setTask_of_ne (f : Task → Task) (h : x ≠ t) : (k.setTask t f).tasks x = k.tasks x :=
  Function.update_of_ne h ..

/-! ### Steps that only wake and block -/

end Kernel

/-- A task without what the scheduler writes: its place in the tree, its memory and its exit code. -/
def Task.links (t : Task) : Task :=
  { t with state := .new, waitKind := .none, ticksRemaining := 0, sleepUntil := 0, regs := .zero }

/-- Tasks with the same links agree on what the links hold. -/
theorem Task.links_inj {a b : Task} (h : a.links = b.links) :
    a.pid = b.pid ∧ a.exitCode = b.exitCode ∧ a.isUser = b.isUser ∧ a.pml4 = b.pml4 ∧
      a.kernelStack = b.kernelStack ∧ a.parent = b.parent ∧ a.children = b.children ∧
      a.siblingLinked = b.siblingLinked := by
  simp only [Task.links, Task.mk.injEq] at h
  obtain ⟨h1, h2, -, -, h3, -, -, h4, h5, h6, h7, h8, -, -⟩ := h
  exact ⟨h1, h2, h3, h4, h5, h6, h7, h8⟩

namespace Kernel

variable {k k' : Kernel} {t x c n : ℕ}

/-- How the state of a task may change while no task is switched to: not at all, by a wake-up or by
`task_set_ready`, or because the current task blocks. -/
def Move (k : Kernel) (x : ℕ) (new : Task) : Prop :=
  (new.state = (k.tasks x).state ∧ new.waitKind = (k.tasks x).waitKind) ∨
  (((k.tasks x).state = .waiting ∨ (k.tasks x).state = .new) ∧ new.state = .ready) ∨
  (x = k.current ∧ x ≠ idle ∧ (k.tasks x).state = .running ∧ new.state = .waiting)

/-- Some tasks woke up, became ready or blocked; nothing else changed but registers of the machine. -/
structure Calm (k k' : Kernel) : Prop where
  taskList : k'.taskList = k.taskList
  current : k'.current = k.current
  nextTask : k'.nextTask = k.nextTask
  freed : k'.freed = k.freed
  enabled : k'.schedulerEnabled = k.schedulerEnabled
  links : ∀ x, (k'.tasks x).links = (k.tasks x).links
  regs : ∀ x, (k'.tasks x).regs = (k.tasks x).regs
  moves : ∀ x, k.Move x (k'.tasks x)

theorem Calm.refl (k : Kernel) : Calm k k where
  taskList := rfl
  current := rfl
  nextTask := rfl
  freed := rfl
  enabled := rfl
  links := fun _ => rfl
  regs := fun _ => rfl
  moves := fun _ => .inl ⟨rfl, rfl⟩

/-- A change of one task that keeps its links is calm. -/
theorem Calm.setTask {f : Task → Task} (hlinks : (f (k.tasks t)).links = (k.tasks t).links)
    (hregs : (f (k.tasks t)).regs = (k.tasks t).regs) (hmove : k.Move t (f (k.tasks t))) :
    Calm k (k.setTask t f) where
  taskList := rfl
  current := rfl
  nextTask := rfl
  freed := rfl
  enabled := rfl
  links := by
    intro x
    by_cases hx : x = t
    · rw [hx, setTask_self]
      exact hlinks
    · rw [setTask_of_ne f hx]
  regs := by
    intro x
    by_cases hx : x = t
    · rw [hx, setTask_self]
      exact hregs
    · rw [setTask_of_ne f hx]
  moves := by
    intro x
    by_cases hx : x = t
    · rw [hx, setTask_self]
      exact hmove
    · rw [setTask_of_ne f hx]
      exact .inl ⟨rfl, rfl⟩

theorem calm_taskSetReady (k : Kernel) (t : ℕ) : Calm k (k.taskSetReady t) := by
  rw [taskSetReady]
  split
  · rename_i h
    exact Calm.setTask rfl rfl (.inr (.inl ⟨.inr h, rfl⟩))
  · exact Calm.refl k

theorem calm_taskWake (k : Kernel) (t : ℕ) : Calm k (k.taskWake t) := by
  rw [taskWake]
  split
  · exact Calm.refl k
  · rename_i h
    exact Calm.setTask rfl rfl (.inr (.inl ⟨.inl (not_not.mp h), rfl⟩))

theorem calm_taskBlock (h : k.me.state = .running) (waitKind : WaitKind) : Calm k (k.taskBlock waitKind) := by
  rw [taskBlock]
  split
  · exact Calm.refl k
  · rename_i hidle
    exact Calm.setTask rfl rfl (.inr (.inr ⟨rfl, hidle, h, rfl⟩))

theorem calm_taskSleep (h : k.me.state = .running) (hidle : k.current ≠ idle) (ms : ℕ) :
    Calm k (k.taskSleep ms) :=
  Calm.setTask rfl rfl (.inr (.inr ⟨rfl, hidle, h, rfl⟩))

/-- Wake the tasks for which `P` holds. -/
def wakeWhere (k : Kernel) (P : Task → Prop) [DecidablePred P] : Kernel :=
  { k with tasks := fun x => if x ∈ k.taskList ∧ P (k.tasks x) then (k.tasks x).woken else k.tasks x }

/-- A loop over the tasks that wakes each one for which `P` holds; `P` fails of a ready task. -/
theorem foldl_wake {P : ℕ → Task → Prop} [∀ n t, Decidable (P n t)] (hP : ∀ n t, P n t → t.state = .waiting)
    (l : List ℕ) (k : Kernel) :
    l.foldl (fun k t => if P k.pitTicks (k.tasks t) then k.setTask t Task.woken else k) k =
      { k with
        tasks := fun x => if x ∈ l ∧ P k.pitTicks (k.tasks x) then (k.tasks x).woken else k.tasks x } := by
  induction l generalizing k with
  | nil => simp
  | cons t l ih =>
    rw [List.foldl_cons, ih]
    by_cases ht : P k.pitTicks (k.tasks t)
    · rw [if_pos ht]
      have htasks : (fun x => if x ∈ l ∧ P (k.setTask t Task.woken).pitTicks ((k.setTask t Task.woken).tasks x)
            then ((k.setTask t Task.woken).tasks x).woken else (k.setTask t Task.woken).tasks x) =
          fun x => if x ∈ t :: l ∧ P k.pitTicks (k.tasks x) then (k.tasks x).woken else k.tasks x := by
        funext x
        by_cases hx : x = t
        · have hready : ¬P k.pitTicks (k.tasks t).woken := by
            intro h
            cases hP _ _ h
          simp only [hx, setTask_self, setTask_pitTicks, hready, and_false, if_false, List.mem_cons,
            true_or, ht, and_self, if_true]
        · have hmem : x ∈ t :: l ↔ x ∈ l := by simp [hx]
          simp only [setTask_of_ne _ hx, setTask_pitTicks, hmem]
      rw [htasks]
      rfl
    · rw [if_neg ht]
      congr 1
      funext x
      by_cases hx : x = t
      · simp only [hx, ht, and_false, if_false]
      · have hmem : x ∈ t :: l ↔ x ∈ l := by simp [hx]
        simp only [hmem]

/-- **`task_wake_all`** wakes exactly the tasks that wait for it. -/
theorem taskWakeAll_eq (k : Kernel) (waitKind : WaitKind) :
    k.taskWakeAll waitKind = k.wakeWhere fun t => t.state = .waiting ∧ t.waitKind = waitKind := by
  have hbody : (fun (k : Kernel) t =>
      if (k.tasks t).state = .waiting ∧ (k.tasks t).waitKind = waitKind then k.taskWake t else k) =
      fun k t => if (k.tasks t).state = .waiting ∧ (k.tasks t).waitKind = waitKind then
        k.setTask t Task.woken else k := by
    funext k t
    by_cases h : (k.tasks t).state = .waiting ∧ (k.tasks t).waitKind = waitKind
    · rw [if_pos h, if_pos h, taskWake, if_neg (not_not.mpr h.1)]
    · rw [if_neg h, if_neg h]
  rw [taskWakeAll, hbody]
  exact foldl_wake (P := fun _ t => t.state = .waiting ∧ t.waitKind = waitKind) (fun _ _ h => h.1) _ k

/-- **`task_tick`** wakes exactly the sleepers whose time has come. -/
theorem taskTick_eq (k : Kernel) :
    k.taskTick = k.wakeWhere fun t =>
      t.state = .waiting ∧ t.waitKind = .sleep ∧ t.sleepUntil ≤ k.pitTicks :=
  foldl_wake (P := fun ticks t => t.state = .waiting ∧ t.waitKind = .sleep ∧ t.sleepUntil ≤ ticks)
    (fun _ _ h => h.1) _ k

theorem calm_wakeWhere {P : Task → Prop} [DecidablePred P] (hP : ∀ t, P t → t.state = .waiting)
    (k : Kernel) : Calm k (k.wakeWhere P) where
  taskList := rfl
  current := rfl
  nextTask := rfl
  freed := rfl
  enabled := rfl
  links := by
    intro x
    simp only [wakeWhere]
    split <;> rfl
  regs := by
    intro x
    simp only [wakeWhere]
    split <;> rfl
  moves := by
    intro x
    simp only [wakeWhere]
    split
    · rename_i h
      exact .inr (.inl ⟨.inl (hP _ h.2), rfl⟩)
    · exact .inl ⟨rfl, rfl⟩

theorem calm_tick (k : Kernel) :
    Calm k ({ k with pitTicks := (k.pitTicks + 1) % 2 ^ 64 } : Kernel).taskTick := by
  rw [taskTick_eq]
  have h := calm_wakeWhere
    (P := fun t => t.state = .waiting ∧ t.waitKind = .sleep ∧ t.sleepUntil ≤ (k.pitTicks + 1) % 2 ^ 64)
    (fun _ h => h.1) { k with pitTicks := (k.pitTicks + 1) % 2 ^ 64 }
  exact ⟨h.taskList, h.current, h.nextTask, h.freed, h.enabled, h.links, h.regs, h.moves⟩

theorem calm_of_exec {a : Action} (hidle : (k.tasks idle).isUser = false) (h : k.exec a = some k')
    (ha : a.IsCalm) : Calm k k' := by
  cases a with
  | entry frame =>
    obtain rfl := Option.some.inj h
    exact ⟨rfl, rfl, rfl, rfl, rfl, fun _ => rfl, fun _ => rfl, fun _ => .inl ⟨rfl, rfl⟩⟩
  | taskSetReady t =>
    obtain ⟨-, rfl⟩ := of_guard h
    exact calm_taskSetReady k t
  | block waitKind =>
    obtain ⟨hrun, rfl⟩ := of_guard h
    exact calm_taskBlock hrun waitKind
  | sleep ms =>
    obtain ⟨⟨hrun, huser⟩, rfl⟩ := of_guard h
    apply calm_taskSleep hrun _ ms
    intro hcur
    rw [me, hcur, hidle] at huser
    cases huser
  | wake t =>
    obtain ⟨-, rfl⟩ := of_guard h
    exact calm_taskWake k t
  | wakeAll waitKind =>
    obtain rfl := Option.some.inj h
    rw [taskWakeAll_eq]
    exact calm_wakeWhere (fun _ h => h.1) k
  | tick =>
    obtain rfl := Option.some.inj h
    exact calm_tick k
  | taskCreate | spawnJoin | spawnFail | exit | waitpid | scheduler => cases ha

/-! ### Creating and joining -/

/-- `k'` differs from `k` in its tasks only. -/
structure SameRest (k k' : Kernel) : Prop where
  taskList : k'.taskList = k.taskList
  current : k'.current = k.current
  nextTask : k'.nextTask = k.nextTask
  freed : k'.freed = k.freed
  enabled : k'.schedulerEnabled = k.schedulerEnabled
  frame : k'.frame = k.frame
  pidCounter : k'.pidCounter = k.pidCounter

theorem SameRest.refl (k : Kernel) : SameRest k k := ⟨rfl, rfl, rfl, rfl, rfl, rfl, rfl⟩

theorem SameRest.setTask (h : SameRest k k') (t : ℕ) (f : Task → Task) : SameRest k (k'.setTask t f) :=
  ⟨h.taskList, h.current, h.nextTask, h.freed, h.enabled, h.frame, h.pidCounter⟩

theorem SameRest.trans {k'' : Kernel} (h : SameRest k k') (h' : SameRest k' k'') : SameRest k k'' :=
  ⟨h'.taskList.trans h.taskList, h'.current.trans h.current, h'.nextTask.trans h.nextTask,
    h'.freed.trans h.freed, h'.enabled.trans h.enabled, h'.frame.trans h.frame,
    h'.pidCounter.trans h.pidCounter⟩

end Kernel

/-- A task that has joined the children of `p` with its image loaded. -/
def Task.joined (t : Task) (p rip rsp : ℕ) : Task :=
  { t with
    regs := { t.regs with rip := rip, rsp := rsp }
    parent := some p
    siblingLinked := true
    state := .ready }

/-- A task whose parent has exited. -/
def Task.orphaned (t : Task) : Task :=
  { t with
    state := if t.state = .zombie then .terminated else t.state
    parent := some idle
    siblingLinked := true }

theorem Task.orphaned_orphaned (t : Task) : t.orphaned.orphaned = t.orphaned := by
  by_cases h : t.state = .zombie
  · simp [Task.orphaned, h]
  · simp [Task.orphaned, h]

/-- A task one of whose children has exited. -/
def Task.childExited (t : Task) : Task :=
  if t.state = .waiting ∧ t.waitKind = .child then t.woken else t

theorem Task.childExited_parent (t : Task) : t.childExited.parent = t.parent := by
  rw [Task.childExited]
  split <;> rfl

theorem Task.childExited_pid (t : Task) : t.childExited.pid = t.pid := by
  rw [Task.childExited]
  split <;> rfl

theorem Task.childExited_children (t : Task) : t.childExited.children = t.children := by
  rw [Task.childExited]
  split <;> rfl

namespace Kernel

variable {k k' : Kernel} {t x c n : ℕ}

theorem spawnJoin_rest (k : Kernel) (t rip rsp : ℕ) : SameRest k (k.spawnJoin t rip rsp).2 := by
  have h := ((SameRest.refl k).setTask t fun c =>
    { c with regs := { c.regs with rip := rip, rsp := rsp }, parent := some k.current, siblingLinked := true })
    |>.setTask k.current fun p => { p with children := p.children ++ [t] }
  simp only [spawnJoin, taskSetReady]
  split
  · exact h.setTask _ _
  · exact h

/-- The task that runs is not new. -/
theorem ne_current_of_new (hrun : k.me.state = .running) (hnew : (k.tasks t).state = .new) : t ≠ k.current := by
  intro htc
  rw [htc] at hnew
  exact absurd (hrun.symm.trans hnew) (by decide)

theorem spawnJoin_tasks (ht : t ≠ k.current) (hnew : (k.tasks t).state = .new) (rip rsp : ℕ) (x : ℕ) :
    (k.spawnJoin t rip rsp).2.tasks x =
      if x = t then (k.tasks t).joined k.current rip rsp
      else if x = k.current then { k.me with children := k.me.children ++ [t] }
      else k.tasks x := by
  set k₁ := k.setTask t fun c =>
    { c with regs := { c.regs with rip := rip, rsp := rsp }, parent := some k.current, siblingLinked := true }
  set k₂ := k₁.setTask k.current fun p => { p with children := p.children ++ [t] } with hk₂
  have ht₂ : k₂.tasks t = { k.tasks t with
      regs := { (k.tasks t).regs with rip := rip, rsp := rsp }
      parent := some k.current
      siblingLinked := true } := by
    rw [hk₂, setTask_of_ne _ ht, setTask_self]
  have hjoin : (k.spawnJoin t rip rsp).2 = k₂.setTask t fun c => { c with state := .ready } := by
    show k₂.taskSetReady t = _
    rw [taskSetReady, if_pos (by rw [ht₂]; exact hnew)]
  rw [hjoin]
  by_cases hx : x = t
  · rw [if_pos hx, hx, setTask_self, ht₂]
    rfl
  · rw [if_neg hx, setTask_of_ne _ hx, hk₂]
    by_cases hxc : x = k.current
    · rw [if_pos hxc, hxc, setTask_self, setTask_of_ne _ (Ne.symm ht)]
      rfl
    · rw [if_neg hxc, setTask_of_ne _ hxc, setTask_of_ne _ hx]

theorem spawnJoin_parent (ht : t ≠ k.current) (hnew : (k.tasks t).state = .new) (rip rsp x : ℕ) :
    ((k.spawnJoin t rip rsp).2.tasks x).parent =
      if x = t then some k.current else (k.tasks x).parent := by
  rw [spawnJoin_tasks ht hnew]
  by_cases hxt : x = t
  · rw [if_pos hxt, if_pos hxt]
    rfl
  · rw [if_neg hxt, if_neg hxt]
    split
    · rename_i hxc
      rw [hxc]
      rfl
    · rfl

theorem spawnJoin_children (ht : t ≠ k.current) (hnew : (k.tasks t).state = .new) (rip rsp x : ℕ) :
    ((k.spawnJoin t rip rsp).2.tasks x).children =
      if x = k.current then k.me.children ++ [t] else (k.tasks x).children := by
  rw [spawnJoin_tasks ht hnew]
  by_cases hxt : x = t
  · rw [if_pos hxt, if_neg (hxt ▸ ht), hxt]
    rfl
  · rw [if_neg hxt]
    split <;> rfl

/-- Joining changes the state of the new task only, and no exit code. -/
theorem spawnJoin_state (ht : t ≠ k.current) (hnew : (k.tasks t).state = .new) (rip rsp x : ℕ) :
    ((k.spawnJoin t rip rsp).2.tasks x).state = (if x = t then .ready else (k.tasks x).state) ∧
      ((k.spawnJoin t rip rsp).2.tasks x).exitCode = (k.tasks x).exitCode := by
  rw [spawnJoin_tasks ht hnew]
  by_cases hxt : x = t
  · rw [if_pos hxt, if_pos hxt, hxt]
    exact ⟨rfl, rfl⟩
  · rw [if_neg hxt, if_neg hxt]
    split
    · rename_i hxc
      rw [hxc]
      exact ⟨rfl, rfl⟩
    · exact ⟨rfl, rfl⟩

/-! ### Leaving -/

theorem reparent_rest (me : ℕ) (k : Kernel) (c : ℕ) : SameRest k (reparent me k c) := by
  simp only [reparent]
  split
  · exact ((((SameRest.refl k).setTask _ _).setTask _ _).setTask _ _).setTask _ _
  · exact (((SameRest.refl k).setTask _ _).setTask _ _).setTask _ _

theorem reparent_tasks {me : ℕ} (hme : me ≠ idle) (hcm : c ≠ me) (hci : c ≠ idle) (k : Kernel) (x : ℕ) :
    (reparent me k c).tasks x =
      if x = c then (k.tasks c).orphaned
      else if x = me then { k.tasks me with children := listDel c (k.tasks me).children }
      else if x = idle then { k.tasks idle with children := (k.tasks idle).children ++ [c] }
      else k.tasks x := by
  set k₁ := if (k.tasks c).state = .zombie then k.setTask c fun t => { t with state := .terminated } else k
    with hk₁
  have hc₁ : k₁.tasks c = { k.tasks c with
      state := if (k.tasks c).state = .zombie then .terminated else (k.tasks c).state } := by
    rw [hk₁]
    split
    · exact setTask_self ..
    · rfl
  have hother₁ : ∀ x, x ≠ c → k₁.tasks x = k.tasks x := by
    intro x hx
    rw [hk₁]
    split
    · exact setTask_of_ne _ hx
    · rfl
  have hreparent : reparent me k c =
      ((k₁.setTask me fun t => { t with children := listDel c t.children }).setTask idle fun t =>
        { t with children := t.children ++ [c] }).setTask c fun t =>
          { t with parent := some idle, siblingLinked := true } := rfl
  rw [hreparent]
  by_cases hxc : x = c
  · rw [if_pos hxc, hxc, setTask_self, setTask_of_ne _ hci, setTask_of_ne _ hcm, hc₁]
    rfl
  rw [if_neg hxc, setTask_of_ne _ hxc]
  by_cases hxm : x = me
  · rw [if_pos hxm, hxm, setTask_of_ne _ hme, setTask_self, hother₁ me (Ne.symm hcm)]
  rw [if_neg hxm]
  by_cases hxi : x = idle
  · rw [if_pos hxi, hxi, setTask_self, setTask_of_ne _ (Ne.symm hme), hother₁ idle (Ne.symm hci)]
  · rw [if_neg hxi, setTask_of_ne _ hxi, setTask_of_ne _ hxm, hother₁ x hxc]

theorem foldl_reparent_rest (me : ℕ) (l : List ℕ) (k : Kernel) : SameRest k (l.foldl (reparent me) k) := by
  induction l generalizing k with
  | nil => exact SameRest.refl k
  | cons c l ih => exact (reparent_rest me k c).trans (ih (reparent me k c))

/-- **The loop of `task_exit`** gives the children to `idle`, in their order. -/
theorem foldl_reparent_tasks {me : ℕ} (hme : me ≠ idle) (l : List ℕ) (hml : me ∉ l) (hil : idle ∉ l)
    (k : Kernel) (x : ℕ) :
    (l.foldl (reparent me) k).tasks x =
      if x ∈ l then (k.tasks x).orphaned
      else if x = me then { k.tasks me with children := (k.tasks me).children.filter (decide <| · ∉ l) }
      else if x = idle then { k.tasks idle with children := (k.tasks idle).children ++ l }
      else k.tasks x := by
  induction l generalizing k with
  | nil =>
    by_cases hxm : x = me
    · subst hxm
      simp
    · by_cases hxi : x = idle
      · subst hxi
        simp [hxm]
      · simp [hxm, hxi]
  | cons c l ih =>
    obtain ⟨hmc, hml⟩ := not_or.mp fun h => hml (List.mem_cons.mpr h)
    obtain ⟨hic, hil⟩ := not_or.mp fun h => hil (List.mem_cons.mpr h)
    have hstep := reparent_tasks hme (Ne.symm hmc) (Ne.symm hic) k
    rw [List.foldl_cons, ih hml hil]
    have hme₁ : (reparent me k c).tasks me =
        { k.tasks me with children := listDel c (k.tasks me).children } := by
      rw [hstep, if_neg hmc, if_pos rfl]
    have hidle₁ : (reparent me k c).tasks idle =
        { k.tasks idle with children := (k.tasks idle).children ++ [c] } := by
      rw [hstep, if_neg hic, if_neg (Ne.symm hme), if_pos rfl]
    rw [hme₁, hidle₁, hstep]
    by_cases hxc : x = c
    · rw [if_pos hxc, hxc, if_pos (List.mem_cons_self), Task.orphaned_orphaned]
      split
      · rfl
      · rw [if_neg (Ne.symm hmc), if_neg (Ne.symm hic)]
    · rw [if_neg hxc]
      have hmem : x ∈ c :: l ↔ x ∈ l := by simp [hxc]
      by_cases hxl : x ∈ l
      · have hxm : x ≠ me := fun h => hml (h ▸ hxl)
        have hxi : x ≠ idle := fun h => hil (h ▸ hxl)
        rw [if_pos hxl, if_pos (hmem.mpr hxl), if_neg hxm, if_neg hxi]
      · rw [if_neg hxl, if_neg (mt hmem.mp hxl)]
        by_cases hxm : x = me
        · rw [if_pos hxm, if_pos hxm]
          simp only [listDel, List.filter_filter, List.mem_cons, not_or]
          congr 1
          apply List.filter_congr
          intro y _
          by_cases hyc : y = c <;> simp [hyc]
        · by_cases hxi : x = idle
          · simp only [if_neg hxm, if_pos hxi, List.append_assoc, List.singleton_append]
          · simp only [if_neg hxm, if_neg hxi]

/-- A task nobody waits for when it exits. -/
def Unparented (t : Task) : Prop := t.parent = none ∨ t.parent = some idle

instance (t : Task) : Decidable (Unparented t) := inferInstanceAs (Decidable (_ ∨ _))

/-- What an exit of the current task does, when that is not `idle` and not its own child or parent. -/
structure Exited (k k' : Kernel) (code : ℤ) : Prop where
  rest : SameRest k k'
  me : k'.tasks k.current = { k.me with
    exitCode := code
    children := []
    state := if Unparented k.me then .terminated else .zombie }
  idle : k'.tasks idle = { k.tasks idle with children := (k.tasks idle).children ++ k.me.children }
  parent : ∀ x, x ≠ k.current → x ≠ Sched.idle → k.me.parent = some x →
    k'.tasks x = (if x ∈ k.me.children then (k.tasks x).orphaned else k.tasks x).childExited
  others : ∀ x, x ≠ k.current → x ≠ Sched.idle → k.me.parent ≠ some x →
    k'.tasks x = if x ∈ k.me.children then (k.tasks x).orphaned else k.tasks x

theorem exited_exitWith (hcur : k.current ≠ idle) (hself : k.current ∉ k.me.children)
    (hidle : idle ∉ k.me.children) (hparent : k.me.parent ≠ some k.current) (code : ℤ) :
    Exited k (k.exitWith code) code := by
  set k₀ := k.setTask k.current fun t => { t with exitCode := code } with hk₀
  have hme₀ : k₀.tasks k.current = { k.me with exitCode := code } := setTask_self ..
  have hother₀ : ∀ x, x ≠ k.current → k₀.tasks x = k.tasks x := fun x hx => setTask_of_ne _ hx
  set k₁ := k.me.children.foldl (reparent k.current) k₀ with hk₁
  have hrest₁ : SameRest k k₁ := ((SameRest.refl k).setTask _ _).trans (foldl_reparent_rest _ _ _)
  have htasks₁ := foldl_reparent_tasks hcur k.me.children hself hidle k₀
  rw [← hk₁] at htasks₁
  have hme₁ : k₁.tasks k.current = { k.me with exitCode := code, children := [] } := by
    rw [htasks₁, if_neg hself, if_pos rfl, hme₀]
    simp
  have hidle₁ : k₁.tasks idle =
      { k.tasks idle with children := (k.tasks idle).children ++ k.me.children } := by
    rw [htasks₁, if_neg hidle, if_neg (Ne.symm hcur), if_pos rfl, hother₀ idle (Ne.symm hcur)]
  have hother₁ : ∀ x, x ≠ k.current → x ≠ idle →
      k₁.tasks x = if x ∈ k.me.children then (k.tasks x).orphaned else k.tasks x := by
    intro x hxc hxi
    rw [htasks₁, hother₀ x hxc, if_neg hxc, if_neg hxi]
  have hfold : (k₀.tasks k₀.current).children.foldl (reparent k₀.current) k₀ = k₁ := by
    show (k₀.tasks k.current).children.foldl (reparent k.current) k₀ = k₁
    rw [hme₀]
  have hp : (k₁.tasks k₀.current).parent = k.me.parent := by
    show (k₁.tasks k.current).parent = k.me.parent
    rw [hme₁]
  have hnone : k.me.parent = none →
      k.exitWith code = k₁.setTask k.current fun t => { t with state := .terminated } := by
    intro h
    show k₀.taskExit = _
    rw [taskExit]
    simp only []
    rw [if_neg (show ¬k₀.current = idle from hcur), hfold, hp, h]
    rfl
  have hsome : ∀ p, k.me.parent = some p → k.exitWith code =
      if p = idle then k₁.setTask k.current fun t => { t with state := .terminated }
      else
        let k := k₁.setTask k.current fun t => { t with state := .zombie }
        if (k.tasks p).state = .waiting ∧ (k.tasks p).waitKind = .child then k.taskWake p else k := by
    intro p h
    show k₀.taskExit = _
    rw [taskExit]
    simp only []
    rw [if_neg (show ¬k₀.current = idle from hcur), hfold, hp, h]
    rfl
  -- leaving without a parent to wait, or with one
  have hset : ∀ st x, x ≠ k.current →
      (k₁.setTask k.current fun t => { t with state := st }).tasks x = k₁.tasks x :=
    fun st x hx => setTask_of_ne _ hx
  have hsetMe : ∀ st, (k₁.setTask k.current fun t => { t with state := st }).tasks k.current =
      { k.me with exitCode := code, children := [], state := st } := by
    intro st
    rw [setTask_self, hme₁]
  have hunparented : Unparented k.me →
      k.exitWith code = k₁.setTask k.current fun t => { t with state := .terminated } := by
    intro h
    rcases h with h | h
    · exact hnone h
    · rw [hsome idle h]
      exact if_pos rfl
  by_cases hun : Unparented k.me
  · rw [hunparented hun]
    refine ⟨hrest₁.setTask _ _, by rw [hsetMe, if_pos hun], by rw [hset _ _ (Ne.symm hcur), hidle₁],
      fun x hxc hxi hpx => ?_, fun x hxc hxi _ => by rw [hset _ x hxc, hother₁ x hxc hxi]⟩
    rcases hun with h | h
    · rw [h] at hpx
      cases hpx
    · rw [h] at hpx
      exact absurd (Option.some.inj hpx).symm hxi
  · cases hpar : k.me.parent with
    | none => exact absurd (.inl hpar) hun
    | some p =>
      have hpi : p ≠ idle := fun h => hun (.inr (h ▸ hpar))
      have hpc : p ≠ k.current := fun h => hparent (h ▸ hpar)
      set k₂ := k₁.setTask k.current fun t => { t with state := .zombie } with hk₂
      have hp₂ : k₂.tasks p = if p ∈ k.me.children then (k.tasks p).orphaned else k.tasks p := by
        rw [hset _ p hpc, hother₁ p hpc hpi]
      have hwake : k.exitWith code = k₂.setTask p Task.childExited := by
        rw [hsome p hpar, if_neg hpi]
        show (if (k₂.tasks p).state = .waiting ∧ (k₂.tasks p).waitKind = .child then k₂.taskWake p else k₂) = _
        by_cases hw : (k₂.tasks p).state = .waiting ∧ (k₂.tasks p).waitKind = .child
        · rw [if_pos hw, taskWake, if_neg (not_not.mpr hw.1)]
          simp only [setTask, Task.childExited, if_pos hw]
        · rw [if_neg hw]
          simp only [setTask, Task.childExited, if_neg hw, Function.update_eq_self]
      rw [hwake]
      refine ⟨(hrest₁.setTask _ _).setTask _ _, ?_, ?_, fun x hxc hxi hpx => ?_, fun x hxc hxi hpx => ?_⟩
      · rw [setTask_of_ne _ (Ne.symm hpc), hsetMe, if_neg hun]
      · rw [setTask_of_ne _ (Ne.symm hpi), hset _ _ (Ne.symm hcur), hidle₁]
      · obtain rfl : p = x := Option.some.inj (hpar.symm.trans hpx)
        rw [setTask_self, hp₂]
      · have hxp : x ≠ p := fun h => hpx (h ▸ hpar)
        rw [setTask_of_ne _ hxp, hset _ x hxc, hother₁ x hxc hxi]

/-! ### Waiting -/

/-- The child is one that `task_waitpid(pid)` waits for. -/
def Matches (k : Kernel) (pid : ℤ) (c : ℕ) : Prop := pid ≤ 0 ∨ toInt (k.tasks c).pid = pid

instance (k : Kernel) (pid : ℤ) (c : ℕ) : Decidable (k.Matches pid c) := inferInstanceAs (Decidable (_ ∨ _))

theorem not_matches_iff (pid : ℤ) (c : ℕ) :
    (0 < pid ∧ toInt (k.tasks c).pid ≠ pid) ↔ ¬k.Matches pid c := by
  rw [Matches, not_or, not_le]

/-- The scan counts no child exactly when none matches, and stops at the first zombie that does. -/
theorem scanChildren_spec (k : Kernel) (pid : ℤ) (l : List ℕ) (found : ℕ) :
    (k.scanChildren pid l found).2 =
        l.find? (fun c => decide (k.Matches pid c ∧ (k.tasks c).state = .zombie)) ∧
      found ≤ (k.scanChildren pid l found).1 ∧
      ((k.scanChildren pid l found).1 = found ↔ ∀ c ∈ l, ¬k.Matches pid c) := by
  induction l generalizing found with
  | nil => simp [scanChildren]
  | cons c l ih =>
    by_cases hm : k.Matches pid c
    · have hguard : ¬(0 < pid ∧ toInt (k.tasks c).pid ≠ pid) := by
        rw [not_matches_iff]
        exact not_not.mpr hm
      have hsome : ¬∀ x ∈ c :: l, ¬k.Matches pid x := fun h => h c List.mem_cons_self hm
      by_cases hz : (k.tasks c).state = .zombie
      · rw [scanChildren, if_neg hguard, if_pos hz, List.find?_cons_of_pos (by simp [hm, hz])]
        refine ⟨rfl, Nat.le_succ _, fun h => ?_, fun h => absurd h hsome⟩
        exact absurd h (Nat.succ_ne_self found)
      · obtain ⟨h1, h2, -⟩ := ih (found + 1)
        rw [scanChildren, if_neg hguard, if_neg hz, List.find?_cons_of_neg (by simp [hz])]
        refine ⟨h1, by omega, fun h => ?_, fun h => absurd h hsome⟩
        omega
    · obtain ⟨h1, h2, h3⟩ := ih found
      rw [scanChildren, if_pos ((not_matches_iff pid c).mpr hm),
        List.find?_cons_of_neg (by simp [hm])]
      refine ⟨h1, h2, h3.trans ?_⟩
      simp [hm]

/-- **A pass of `task_waitpid`**: no child matches, or it collects a matching zombie, or it blocks because no
matching child is one. -/
theorem taskWaitpid_cases (k : Kernel) (pid : ℤ) :
    (k.taskWaitpid pid = (.answer (-ECHILD) none, k) ∧ ∀ c ∈ k.me.children, ¬k.Matches pid c) ∨
    (∃ z ∈ k.me.children, k.Matches pid z ∧ (k.tasks z).state = .zombie ∧
      k.taskWaitpid pid = (.answer (toInt (k.tasks z).pid) (some (k.tasks z).exitCode), k.collect z)) ∨
    (k.taskWaitpid pid = (.block, k) ∧ (∃ c ∈ k.me.children, k.Matches pid c) ∧
      ∀ c ∈ k.me.children, k.Matches pid c → (k.tasks c).state ≠ .zombie) := by
  obtain ⟨hz, -, hfound⟩ := scanChildren_spec k pid k.me.children 0
  rw [taskWaitpid]
  generalize k.scanChildren pid k.me.children 0 = r at hz hfound ⊢
  obtain ⟨found, zombie⟩ := r
  cases found with
  | zero =>
    left
    exact ⟨rfl, hfound.mp rfl⟩
  | succ found =>
    right
    cases zombie with
    | some z =>
      left
      have hfind := hz.symm
      have hmem := List.mem_of_find?_eq_some hfind
      have hboth := List.find?_some hfind
      obtain ⟨hm, hzombie⟩ := of_decide_eq_true hboth
      exact ⟨z, hmem, hm, hzombie, rfl⟩
    | none =>
      right
      have hnone := List.find?_eq_none.mp hz.symm
      refine ⟨rfl, ?_, fun c hc hm hzombie => hnone c hc (decide_eq_true ⟨hm, hzombie⟩)⟩
      by_contra hno
      have := hfound.mpr fun c hc hm => hno ⟨c, hc, hm⟩
      cases this

theorem collect_rest (k : Kernel) (z : ℕ) : SameRest k (k.collect z) := by
  rw [collect]
  exact ((SameRest.refl k).setTask _ _).setTask _ _

theorem collect_tasks {z : ℕ} (hz : z ≠ k.current) (x : ℕ) :
    (k.collect z).tasks x =
      if x = z then { k.tasks z with parent := none, siblingLinked := false, state := .terminated }
      else if x = k.current then { k.me with children := listDel z k.me.children }
      else k.tasks x := by
  rw [collect]
  by_cases hxz : x = z
  · rw [if_pos hxz, hxz, setTask_self, setTask_of_ne _ hz]
  · rw [if_neg hxz, setTask_of_ne _ hxz]
    by_cases hxc : x = k.current
    · rw [if_pos hxc, hxc, setTask_self]
      rfl
    · rw [if_neg hxc, setTask_of_ne _ hxc]

theorem collect_parent {z : ℕ} (hz : z ≠ k.current) (x : ℕ) :
    ((k.collect z).tasks x).parent = if x = z then none else (k.tasks x).parent := by
  rw [collect_tasks hz]
  by_cases hxz : x = z
  · rw [if_pos hxz, if_pos hxz]
  · rw [if_neg hxz, if_neg hxz]
    split
    · rename_i hxc
      rw [hxc]
      rfl
    · rfl

theorem collect_children {z : ℕ} (hz : z ≠ k.current) (x : ℕ) :
    ((k.collect z).tasks x).children =
      if x = k.current then listDel z k.me.children else (k.tasks x).children := by
  rw [collect_tasks hz]
  by_cases hxz : x = z
  · rw [if_pos hxz, if_neg (hxz ▸ hz), hxz]
  · rw [if_neg hxz]
    split <;> rfl

/-- Collecting changes the state of the zombie only, and no exit code. -/
theorem collect_state {z : ℕ} (hz : z ≠ k.current) (x : ℕ) :
    ((k.collect z).tasks x).state = (if x = z then .terminated else (k.tasks x).state) ∧
      ((k.collect z).tasks x).exitCode = (k.tasks x).exitCode := by
  rw [collect_tasks hz]
  by_cases hxz : x = z
  · rw [if_pos hxz, if_pos hxz, hxz]
    exact ⟨rfl, rfl⟩
  · rw [if_neg hxz, if_neg hxz]
    split
    · rename_i hxc
      rw [hxc]
      exact ⟨rfl, rfl⟩
    · exact ⟨rfl, rfl⟩

theorem mem_listDel {z : ℕ} {l : List ℕ} : c ∈ listDel z l ↔ c ∈ l ∧ c ≠ z := by
  rw [listDel, List.mem_filter, decide_eq_true_eq]

end Kernel

end LizardOs.Sched
