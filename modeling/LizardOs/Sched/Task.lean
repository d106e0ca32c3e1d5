import LizardOs.Lib.Rotation
import LizardOs.Mm.Buddy

/-!
# Tasks and the scheduler

`task.c`, `sched.c` and the process part of `loader.c`.  A task is known by a number that stands for the
address of its `struct task` and is never given out twice; `idle` is task 0.  `task_list` is the list of these
numbers, first entry first, and the children of a task are the list its `children` head leads to.  A task's
`sibling` node is in the list of its parent, is linked to itself, or is cleared: only the last is kept, since
the lists say the rest.
-/

namespace LizardOs.Sched

open LizardOs.Lib LizardOs.Mm

/-- `struct cpu_state`. -/
structure CpuState where
  rax : ℕ
  rbx : ℕ
  rcx : ℕ
  rdx : ℕ
  rdi : ℕ
  rsi : ℕ
  rbp : ℕ
  r8 : ℕ
  r9 : ℕ
  r10 : ℕ
  r11 : ℕ
  r12 : ℕ
  r13 : ℕ
  r14 : ℕ
  r15 : ℕ
  vec : ℕ
  errcode : ℕ
  rip : ℕ
  cs : ℕ
  rflags : ℕ
  rsp : ℕ
  ss : ℕ
deriving DecidableEq

/-- A cleared `struct cpu_state`. -/
def CpuState.zero : CpuState := ⟨0, 0, 0, 0, 0, 0, 0, 0, 0, 0, 0, 0, 0, 0, 0, 0, 0, 0, 0, 0, 0, 0⟩

/-- `TASK_STATE_*`. -/
inductive TaskState where
  | running
  | ready
  | waiting
  | terminated
  | new
  | zombie
deriving DecidableEq

/-- `WAIT_*`. -/
inductive WaitKind where
  | none
  | sleep
  | child
  | input
deriving DecidableEq

/-- `struct task`, without its name, priority, files and working directory, which nothing here reads. -/
structure Task where
  pid : ℕ
  exitCode : ℤ
  state : TaskState
  waitKind : WaitKind
  isUser : Bool
  onHeap : Bool
  regs : CpuState
  pml4 : ℕ
  kernelStack : ℕ
  parent : Option ℕ
  children : List ℕ
  siblingLinked : Bool
  ticksRemaining : ℕ
  sleepUntil : ℕ

/-- A task that waits no more. -/
def Task.woken (t : Task) : Task := { t with waitKind := .none, state := .ready }

def idle : ℕ := 0

/-- `list_del`: an intrusive list holds a node once. -/
def listDel (t : ℕ) (l : List ℕ) : List ℕ := l.filter fun x => decide (x ≠ t)

def TASK_TIMESLICE : ℕ := 5
def RFLAGS_DEFAULT : ℕ := 0x202
def KERNEL_CS : ℕ := 0x08
def KERNEL_SS : ℕ := 0x10
def USER_CS : ℕ := 0x1B
def USER_SS : ℕ := 0x23
def USER_STACK_BASE : ℕ := 0x700000000000
def USER_STACK_PAGES : ℕ := 64
def KSTACK_PAGES : ℕ := 4
def ECHILD : ℤ := 10

/-- The kernel's tasks.  `frame` is the trap frame `ptrace` points to, `tssRsp0` the kernel stack in the task
state segment, and `freed` the tasks the reaper has given back, latest first. -/
structure Kernel where
  tasks : ℕ → Task
  nextTask : ℕ
  taskList : List ℕ
  current : ℕ
  pidCounter : ℕ
  pitTicks : ℕ
  schedulerEnabled : Bool
  frame : CpuState
  currentPml4 : ℕ
  tssRsp0 : ℕ
  freed : List ℕ

/-- What `task_create` allocates.  When the allocator has no page table to give, clearing it faults at address 0
and the kernel stops. -/
structure AddrSpace where
  pml4 : ℕ
  kstack : ℕ
  pml4_ne : pml4 ≠ 0

/-- A 32-bit number read as an `int`. -/
def toInt (u : ℕ) : ℤ := if u < 2 ^ 31 then u else u - 2 ^ 32

namespace Kernel

/-- Change one task. -/
def setTask (k : Kernel) (t : ℕ) (f : Task → Task) : Kernel :=
  { k with tasks := Function.update k.tasks t (f (k.tasks t)) }

/-- The current task. -/
def me (k : Kernel) : Task := k.tasks k.current

/-! ### Creation -/

/-- The registers a task starts with. -/
def startRegs (entryPoint : ℕ) (isUser : Bool) (kernelStack : ℕ) : CpuState :=
  if isUser then
    { CpuState.zero with
      rip := entryPoint
      rflags := RFLAGS_DEFAULT
      cs := USER_CS
      ss := USER_SS
      rsp := USER_STACK_BASE + USER_STACK_PAGES * PAGE_SIZE }
  else
    { CpuState.zero with
      rip := entryPoint
      rflags := RFLAGS_DEFAULT
      cs := KERNEL_CS
      ss := KERNEL_SS
      rsp := kernelStack }

/-- `task_create`; `onHeap` is set by `spawn` right after it. -/
def taskCreate (k : Kernel) (entryPoint : ℕ) (isUser onHeap : Bool) (space : AddrSpace) : Kernel :=
  let kernelStack := space.kstack + KSTACK_PAGES * PAGE_SIZE
  let pid := (k.pidCounter + 1) % 2 ^ 32
  { k with
    pidCounter := pid
    nextTask := k.nextTask + 1
    taskList := k.nextTask :: k.taskList
    tasks := Function.update k.tasks k.nextTask {
      pid := pid
      exitCode := 0
      state := .new
      waitKind := .none
      isUser := isUser
      onHeap := onHeap
      regs := startRegs entryPoint isUser kernelStack
      pml4 := space.pml4
      kernelStack := kernelStack
      parent := none
      children := []
      siblingLinked := true
      ticksRemaining := TASK_TIMESLICE
      sleepUntil := 0 } }

/-- `task_set_ready`. -/
def taskSetReady (k : Kernel) (t : ℕ) : Kernel :=
  if (k.tasks t).state = .new then k.setTask t fun c => { c with state := .ready } else k

/-- The end of `spawn` after `load_elf` has failed. -/
def spawnFail (k : Kernel) (t : ℕ) : ℤ × Kernel :=
  (-1, k.setTask t fun c => { c with state := .terminated })

/-- The end of `spawn` after `load_elf` has set the entry point and the stack: the task joins the children of the
current one and becomes ready. -/
def spawnJoin (k : Kernel) (t rip rsp : ℕ) : ℤ × Kernel :=
  let k := k.setTask t fun c =>
    { c with regs := { c.regs with rip := rip, rsp := rsp }, parent := some k.current, siblingLinked := true }
  let k := k.setTask k.current fun p => { p with children := p.children ++ [t] }
  (toInt (k.tasks t).pid, k.taskSetReady t)

/-! ### Blocking and waking -/

/-- `task_sleep`, up to the reschedule at its end. -/
def taskSleep (k : Kernel) (ms : ℕ) : Kernel :=
  k.setTask k.current fun t =>
    { t with sleepUntil := (k.pitTicks + ms) % 2 ^ 32, waitKind := .sleep, state := .waiting }

/-- `task_block`, up to the reschedule at its end. -/
def taskBlock (k : Kernel) (waitKind : WaitKind) : Kernel :=
  if k.current = idle then k
  else k.setTask k.current fun t => { t with waitKind := waitKind, state := .waiting }

/-- `task_wake`. -/
def taskWake (k : Kernel) (t : ℕ) : Kernel :=
  if (k.tasks t).state ≠ .waiting then k
  else k.setTask t Task.woken

/-- `task_wake_all`. -/
def taskWakeAll (k : Kernel) (waitKind : WaitKind) : Kernel :=
  k.taskList.foldl (fun k t =>
    if (k.tasks t).state = .waiting ∧ (k.tasks t).waitKind = waitKind then k.taskWake t else k) k

/-- `task_tick`. -/
def taskTick (k : Kernel) : Kernel :=
  k.taskList.foldl (fun k t =>
    if (k.tasks t).state = .waiting ∧ (k.tasks t).waitKind = .sleep ∧ (k.tasks t).sleepUntil ≤ k.pitTicks then
      k.setTask t Task.woken
    else k) k

/-! ### Switching -/

/-- `task_load_context`. -/
def taskLoadContext (k : Kernel) (t : ℕ) : Kernel :=
  let saved := (k.tasks t).regs
  { k with
    frame := { k.frame with
      rax := saved.rax
      rdi := saved.rdi
      rsi := saved.rsi
      rdx := saved.rdx
      rcx := saved.rcx
      r8 := saved.r8
      r9 := saved.r9
      r10 := saved.r10
      r11 := saved.r11
      rbx := saved.rbx
      rbp := saved.rbp
      r12 := saved.r12
      r13 := saved.r13
      r14 := saved.r14
      r15 := saved.r15
      rip := saved.rip
      cs := saved.cs
      rflags := saved.rflags
      rsp := saved.rsp
      ss := saved.ss } }

/-- `task_save_context`. -/
def taskSaveContext (k : Kernel) : Kernel :=
  k.setTask k.current fun t =>
    { t with
      regs := { t.regs with
        rax := k.frame.rax
        rdi := k.frame.rdi
        rsi := k.frame.rsi
        rdx := k.frame.rdx
        rcx := k.frame.rcx
        r8 := k.frame.r8
        r9 := k.frame.r9
        r10 := k.frame.r10
        r11 := k.frame.r11
        rbx := k.frame.rbx
        rbp := k.frame.rbp
        r12 := k.frame.r12
        r13 := k.frame.r13
        r14 := k.frame.r14
        r15 := k.frame.r15
        rip := k.frame.rip
        cs := k.frame.cs
        rflags := k.frame.rflags
        rsp := k.frame.rsp
        ss := k.frame.ss } }

/-- `task_switch_to`. -/
def taskSwitchTo (k : Kernel) (next : ℕ) : Kernel :=
  let k := k.taskSaveContext.taskLoadContext next
  { k with
    currentPml4 := if (k.tasks next).pml4 ≠ 0 then (k.tasks next).pml4 else k.currentPml4
    tssRsp0 := (k.tasks next).kernelStack
    current := next }

/-- `next_ready_task`: the tasks behind the current one, then those before it. -/
def nextReadyTask (k : Kernel) : Option ℕ :=
  (rotateFrom k.current k.taskList).find? fun t => decide ((k.tasks t).state = .ready ∧ t ≠ idle)

/-- The body of `reap_terminated`: unlink a dead task and give back what it holds. -/
def reapTask (k : Kernel) (t : ℕ) : Kernel :=
  if t = idle ∨ t = k.current ∨ (k.tasks t).state ≠ .terminated then k
  else
    { k with
      taskList := listDel t k.taskList
      tasks := if (k.tasks t).siblingLinked then
          fun p => { k.tasks p with children := listDel t (k.tasks p).children }
        else k.tasks
      freed := t :: k.freed }

/-- `reap_terminated`. -/
def reapTerminated (k : Kernel) : Kernel := k.taskList.foldl reapTask k

/-- The end of `scheduler`: the current task, if it can run, goes back to the rotation, and `next` runs. -/
def dispatch (k : Kernel) (curRunnable : Bool) (next : ℕ) : Kernel :=
  let cur := k.current
  let k := if curRunnable = true ∧ cur ≠ idle then k.setTask cur fun t => { t with state := .ready } else k
  let k := k.setTask next fun t => { t with state := .running, ticksRemaining := TASK_TIMESLICE }
  if next ≠ cur then k.taskSwitchTo next else k

/-- `scheduler` after the reaper, with the task it chooses to run next. -/
def pick (k : Kernel) : Option ℕ × Kernel :=
  let cur := k.current
  let curRunnable := decide (k.me.state = .running)
  let k := if curRunnable = true ∧ cur ≠ idle then
      k.setTask cur fun t => { t with ticksRemaining := t.ticksRemaining - 1 }
    else k
  if curRunnable = true ∧ cur ≠ idle ∧ k.me.ticksRemaining ≠ 0 then (none, k)
  else
    match k.nextReadyTask with
    | some next => (some next, k.dispatch curRunnable next)
    | none =>
        if curRunnable then (none, k.setTask cur fun t => { t with ticksRemaining := TASK_TIMESLICE })
        else (some idle, k.dispatch curRunnable idle)

/-- `scheduler`, with the task it chooses to run next. -/
def schedule (k : Kernel) : Option ℕ × Kernel :=
  if k.schedulerEnabled = false then (none, k) else k.reapTerminated.pick

def scheduler (k : Kernel) : Kernel := k.schedule.2

/-! ### Exit and wait -/

/-- One child in the loop of `task_exit`: it goes to `idle`, and a zombie is left to the reaper. -/
def reparent (me : ℕ) (k : Kernel) (c : ℕ) : Kernel :=
  let k := if (k.tasks c).state = .zombie then k.setTask c fun t => { t with state := .terminated } else k
  let k := k.setTask me fun t => { t with children := listDel c t.children }
  let k := k.setTask idle fun t => { t with children := t.children ++ [c] }
  k.setTask c fun t => { t with parent := some idle, siblingLinked := true }

/-- `task_exit`, up to the reschedule at its end. -/
def taskExit (k : Kernel) : Kernel :=
  let me := k.current
  if me = idle then k
  else
    let k := (k.tasks me).children.foldl (reparent me) k
    match (k.tasks me).parent with
    | some p =>
        if p = idle then k.setTask me fun t => { t with state := .terminated }
        else
          let k := k.setTask me fun t => { t with state := .zombie }
          if (k.tasks p).state = .waiting ∧ (k.tasks p).waitKind = .child then k.taskWake p else k
    | none => k.setTask me fun t => { t with state := .terminated }

/-- `sys_exit` and the exception that kills a task: store the code, then `task_exit`. -/
def exitWith (k : Kernel) (code : ℤ) : Kernel :=
  (k.setTask k.current fun t => { t with exitCode := code }).taskExit

/-- The scan of `task_waitpid`: how many children match, up to the first zombie among them, and that zombie. -/
def scanChildren (k : Kernel) (pid : ℤ) : List ℕ → ℕ → ℕ × Option ℕ
  | [], found => (found, none)
  | c :: cs, found =>
      if 0 < pid ∧ toInt (k.tasks c).pid ≠ pid then k.scanChildren pid cs found
      else if (k.tasks c).state = .zombie then (found + 1, some c)
      else k.scanChildren pid cs (found + 1)

/-- What one pass of the loop of `task_waitpid` comes to: an answer with the exit code it stores, or a block. -/
inductive WaitAnswer where
  | answer (rpid : ℤ) (status : Option ℤ)
  | block
deriving DecidableEq

/-- Take a zombie out of the tree. -/
def collect (k : Kernel) (z : ℕ) : Kernel :=
  let k := k.setTask k.current fun t => { t with children := listDel z t.children }
  k.setTask z fun t => { t with parent := none, siblingLinked := false, state := .terminated }

/-- One pass of the loop of `task_waitpid`, up to the block. -/
def taskWaitpid (k : Kernel) (pid : ℤ) : WaitAnswer × Kernel :=
  match k.scanChildren pid k.me.children 0 with
  | (0, _) => (.answer (-ECHILD) none, k)
  | (_, some z) => (.answer (toInt (k.tasks z).pid) (some (k.tasks z).exitCode), k.collect z)
  | (_, none) => (.block, k)

end Kernel

end LizardOs.Sched
