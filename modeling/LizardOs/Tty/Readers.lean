import LizardOs.Sched.Effects
import LizardOs.Tty.Stdin

/-!
# Readers of the console

Any number of tasks read, the keyboard types, and the kernel takes its own steps, in any order.  A pass of
`sys_read(0)` looks at the ring and blocks in one step, as the gate keeps interrupts off; a reader that was woken
takes the same step again.  A task waits for input only while the ring is empty: a line that fills the ring wakes
every reader, and no other step leaves one waiting that did not wait before.
-/

namespace LizardOs.Tty

open LizardOs.Lib LizardOs.Sched Kernel

/-- A step of the console: of the kernel, of a reader in the gate, or of the keyboard. -/
inductive ConsoleAction where
  | kernel (a : Action)
  | read (ubuf len : UInt64)
  | key (scancode : UInt8)

/-- Only `sys_read(0)` blocks a task for input. -/
def blocksForInput : Action → Bool
  | .block waitKind => decide (waitKind = .input)
  | _ => false

namespace Console

/-- Run a step. -/
def exec (s : Console) : ConsoleAction → Option Console
  | .kernel a => if blocksForInput a = false then (s.kernel.exec a).map fun k => { s with kernel := k } else none
  | .read ubuf len =>
      if s.kernel.me.state = .running ∧ s.kernel.me.isUser = true then some (s.sysRead ubuf len).2 else none
  | .key scancode => some (s.ttyHandlerInput scancode)

/-- The steps as a relation. -/
def Step (s : Console) (a : ConsoleAction) (s' : Console) : Prop := s.exec a = some s'

/-- The end of `kmain`: nothing typed yet. -/
def boot (b : BootTasks) : Console := ⟨b.kmain, ⟨fun _ => 0, 0, 0, []⟩⟩

/-- The task waits for input. -/
def Sleeps (s : Console) (t : ℕ) : Prop :=
  (s.kernel.tasks t).state = .waiting ∧ (s.kernel.tasks t).waitKind = .input

/-- Nobody sleeps on available input. -/
structure Inv (s : Console) : Prop where
  core : s.kernel.Core
  tree : s.kernel.Tree
  awake : s.tty.stdinHead ≠ s.tty.stdinTail → ∀ t ∈ s.kernel.taskList, ¬s.Sleeps t

variable {s s' : Console} {k' : Kernel} {t x : ℕ}

/-- A step of the kernel that blocks nobody for input. -/
theorem Inv.kernelStep {a : Action} (h : Inv s) (hblock : blocksForInput a = false) (hstep : s.kernel.Step a k') :
    Inv { s with kernel := k' } := by
  refine ⟨h.core.exec hstep, h.tree.exec h.core hstep, fun hne t ht ⟨hwait, hkind⟩ => ?_⟩
  rcases waits_of_exec h.core h.tree hstep hwait with ⟨hwold, hkold⟩ | ⟨-, -, hown | ⟨ms, -, hsleep⟩⟩
  · -- a task that waits is on the list before the step as well
    have htl : t ∈ s.kernel.taskList := mem_of_exec h.core hstep ht (by rw [hwait]; decide)
    exact h.awake hne t htl ⟨hwold, hkold.symm.trans hkind⟩
  · rw [hown, hkind] at hblock
    cases hblock
  · exact absurd (hsleep.symm.trans hkind) (by decide)

/-- `task_wake_all` leaves nobody waiting for what it wakes. -/
theorem not_waits_taskWakeAll (k : Kernel) (waitKind : WaitKind) (ht : t ∈ k.taskList) :
    ¬(((k.taskWakeAll waitKind).tasks t).state = .waiting ∧ ((k.taskWakeAll waitKind).tasks t).waitKind = waitKind) := by
  rw [taskWakeAll_eq]
  intro hw
  simp only [wakeWhere] at hw
  split at hw
  · cases hw.1
  · rename_i hnot
    exact hnot ⟨ht, hw⟩

/-- Only Enter fills the ring. -/
theorem handlerInput_ring (tty : Stdin) {scancode : UInt8} (henter : scancode ≠ KEY_ENTER) :
    (tty.handlerInput scancode).stdinHead = tty.stdinHead ∧ (tty.handlerInput scancode).stdinTail = tty.stdinTail := by
  rw [Stdin.handlerInput, if_neg henter]
  split
  · split
    · exact ⟨rfl, rfl⟩
    · exact ⟨rfl, rfl⟩
  · split
    · split
      · exact ⟨rfl, rfl⟩
      · exact ⟨rfl, rfl⟩
    · exact ⟨rfl, rfl⟩

/-- Typing wakes the readers when it fills the ring, and otherwise changes the line only. -/
theorem Inv.key (h : Inv s) (scancode : UInt8) : Inv (s.ttyHandlerInput scancode) := by
  by_cases henter : scancode = KEY_ENTER
  · have hstep : s.kernel.Step (.wakeAll .input) (s.kernel.taskWakeAll .input) := rfl
    rw [ttyHandlerInput, if_pos henter]
    refine ⟨h.core.exec hstep, h.tree.exec h.core hstep, fun _ t ht hsleep => ?_⟩
    have htl : t ∈ s.kernel.taskList := by
      rw [taskWakeAll_eq] at ht
      exact ht
    exact not_waits_taskWakeAll s.kernel .input htl hsleep
  · rw [ttyHandlerInput, if_neg henter]
    refine ⟨h.core, h.tree, fun hne => h.awake ?_⟩
    obtain ⟨hhead, htail⟩ := handlerInput_ring s.tty henter
    rwa [← hhead, ← htail]

/-- A reader blocks only when the ring is empty, and otherwise changes the ring only. -/
theorem Inv.read (h : Inv s) (hrun : s.kernel.me.state = .running) (ubuf len : UInt64) :
    Inv (s.sysRead ubuf len).2 := by
  rw [sysRead]
  split
  · exact h
  · split
    · exact h
    · split
      · rename_i hempty
        have hstep : s.kernel.Step (.block .input) (s.kernel.taskBlock .input) := if_pos hrun
        have heq : s.tty.stdinHead = s.tty.stdinTail := by
          by_contra hne
          rw [Stdin.ttyStdinAvailable, decide_eq_true hne] at hempty
          cases hempty
        exact ⟨h.core.exec hstep, h.tree.exec h.core hstep, fun hne => absurd heq hne⟩
      · rename_i hsome
        have hne : s.tty.stdinHead ≠ s.tty.stdinTail := by
          intro heq
          exact hsome (decide_eq_false (not_not.mpr heq))
        exact ⟨h.core, h.tree, fun _ => h.awake hne⟩

/-- **Every step** keeps the readers awake while there is input. -/
theorem Inv.step {a : ConsoleAction} (h : Inv s) (hstep : s.Step a s') : Inv s' := by
  cases a with
  | kernel a =>
    obtain ⟨hblock, hmap⟩ := Option.ite_none_right_eq_some.mp hstep
    obtain ⟨k', hexec, rfl⟩ := Option.map_eq_some_iff.mp hmap
    exact h.kernelStep hblock hexec
  | read ubuf len =>
    obtain ⟨⟨hrun, -⟩, hsome⟩ := Option.ite_none_right_eq_some.mp hstep
    rw [← Option.some.inj hsome]
    exact h.read hrun ubuf len
  | key scancode =>
    rw [← Option.some.inj hstep]
    exact h.key scancode

theorem inv_boot (b : BootTasks) : Inv (boot b) :=
  ⟨core_kmain b, tree_kmain b, fun hne => absurd rfl hne⟩

end Console

/-- `task_tick` changes no task that waits for input or for a child. -/
theorem taskTick_of_waits {k : Kernel} {t : ℕ}
    (h : (k.tasks t).waitKind = .input ∨ (k.tasks t).waitKind = .child) : k.taskTick.tasks t = k.tasks t := by
  rw [taskTick_eq]
  simp only [wakeWhere]
  apply if_neg
  rintro ⟨-, -, hsleep, -⟩
  rw [hsleep] at h
  rcases h with h | h
  · cases h
  · cases h

/-- **No reader sleeps on available input.**  In every reachable state in which the ring is not empty no task waits
for input; and from every reachable state `task_tick` leaves the tasks alone that wait for input or for a child. -/
theorem no_reader_sleeps_on_input (b : BootTasks) {s : Console} (h : Reaches Console.Step (.boot b) s) :
    (s.tty.stdinHead ≠ s.tty.stdinTail → ∀ t ∈ s.kernel.taskList, (s.kernel.tasks t).state = .waiting →
      (s.kernel.tasks t).waitKind ≠ .input) ∧
    ∀ t, (s.kernel.tasks t).state = .waiting →
      (s.kernel.tasks t).waitKind = .input ∨ (s.kernel.tasks t).waitKind = .child →
      s.kernel.taskTick.tasks t = s.kernel.tasks t := by
  have hinv : s.Inv := h.invariant (Console.inv_boot b) fun _ _ _ hi hstep => hi.step hstep
  exact ⟨fun hne t ht hwait hkind => hinv.awake hne t ht ⟨hwait, hkind⟩, fun t _ hkind => taskTick_of_waits hkind⟩

/-- The shell reads and blocks, and then a line is typed. -/
def lineTyped : List ConsoleAction :=
  [.kernel .scheduler, .kernel (.taskCreate 0 true true childSpace), .kernel (.spawnJoin 2 0x400000 0x700000),
    .kernel (.block .child), .kernel .scheduler, .read 0x1000 80, .key 0x1E, .key 0x1C]

/-- The ring holds the line, and the shell has been woken. -/
theorem no_reader_sleeps_on_input_lineTyped :
    (runLast Console.exec (.boot sampleBoot) lineTyped).tty.stdinHead = 2 ∧
      (((runLast Console.exec (.boot sampleBoot) lineTyped).kernel.tasks 2).state = .waiting →
        ((runLast Console.exec (.boot sampleBoot) lineTyped).kernel.tasks 2).waitKind ≠ .input) := by
  have hreach : Reaches Console.Step (.boot sampleBoot) (runLast Console.exec (.boot sampleBoot) lineTyped) :=
    (trace_runLast (by decide)).reaches .start
  obtain ⟨hawake, -⟩ := no_reader_sleeps_on_input sampleBoot hreach
  exact ⟨by decide, hawake (by decide) 2 (by decide)⟩

end LizardOs.Tty
