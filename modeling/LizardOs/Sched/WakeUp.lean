import LizardOs.Sched.Effects

/-!
# Waking a parent that waits

`task_waitpid` scans the children and then blocks.  A user task does both inside the `int 0x80` gate, with
interrupts off; a kernel task such as `init` can be preempted in between.  `task_exit` wakes a parent only if it
waits already, so a child that exits in this window is lost: the parent blocks, and nobody wakes it.  Outside the
window no parent waits for a child that is a zombie.
-/

namespace LizardOs.Sched

open LizardOs.Lib Kernel

/-- Where a task is inside `task_waitpid(pid)`: past a scan that found no zombie, or past the block after it. -/
inductive WaitCall where
  | scanned (pid : ℤ)
  | parked (pid : ℤ)
deriving DecidableEq

/-- The kernel, with the call of `task_waitpid` each task is in. -/
structure Callers where
  kernel : Kernel
  call : ℕ → Option WaitCall

/-- The steps with the loop of `task_waitpid` taken apart: the scan and the block of a caller that can be
preempted, and both at once for a caller inside the gate. -/
inductive CallAction where
  | kernel (a : Action)
  | scan (pid : ℤ)
  | park
  | gate (pid : ℤ)

/-- The steps that are no part of `task_waitpid`. -/
def Action.outsideWait : Action → Bool
  | .waitpid _ => false
  | .block waitKind => decide (waitKind ≠ .child)
  | _ => true

/-- The steps that interrupts take, whatever the current task is doing. -/
def Action.interrupts : Action → Bool
  | .entry _ => true
  | .taskSetReady _ => true
  | .wake _ => true
  | .wakeAll _ => true
  | .tick => true
  | .scheduler => true
  | _ => false

namespace Callers

/-- The end of `kmain`. -/
def boot (b : BootTasks) : Callers := ⟨b.kmain, fun _ => none⟩

/-- The current task. -/
def cur (w : Callers) : ℕ := w.kernel.current

/-- Move the current task to another place of its call. -/
def goesTo (w : Callers) (k : Kernel) (place : Option WaitCall) : Callers :=
  ⟨k, Function.update w.call w.cur place⟩

/-- The current task may scan for `pid`: it starts a call, or goes round the loop of one. -/
def CanScan (w : Callers) (pid : ℤ) : Prop :=
  w.kernel.me.state = .running ∧ w.cur ≠ idle ∧ (w.call w.cur = none ∨ w.call w.cur = some (.parked pid))

instance (w : Callers) (pid : ℤ) : Decidable (w.CanScan pid) := inferInstanceAs (Decidable (_ ∧ _ ∧ _))

/-- Run a step. -/
def exec (w : Callers) : CallAction → Option Callers
  | .kernel a =>
      if a.outsideWait = true ∧ (a.interrupts = true ∨ w.call w.cur = none) then
        (w.kernel.exec a).map fun k => ⟨k, w.call⟩
      else none
  | .scan pid =>
      if w.CanScan pid ∧ w.kernel.me.isUser = false then
        match w.kernel.taskWaitpid pid with
        | (.answer _ _, k) => some (w.goesTo k none)
        | (.block, k) => some (w.goesTo k (some (.scanned pid)))
      else none
  | .park =>
      match w.call w.cur with
      | some (.scanned pid) =>
          if w.kernel.me.state = .running then
            some (w.goesTo (w.kernel.taskBlock .child) (some (.parked pid)))
          else none
      | _ => none
  | .gate pid =>
      if w.CanScan pid ∧ w.kernel.me.isUser = true then
        match w.kernel.taskWaitpid pid with
        | (.answer _ _, k) => some (w.goesTo k none)
        | (.block, k) => some (w.goesTo (k.taskBlock .child) (some (.parked pid)))
      else none

/-- The steps as a relation. -/
def Step (w : Callers) (a : CallAction) (w' : Callers) : Prop := w.exec a = some w'

/-- The current task exits while its parent is between its scan and its block, and waits for this child. -/
def races (w : Callers) : CallAction → Bool
  | .kernel (.exit _) =>
      match w.kernel.me.parent with
      | some p =>
          match w.call p with
          | some (.scanned pid) => decide (w.kernel.Matches pid w.cur)
          | _ => false
      | none => false
  | _ => false

/-- No task waits in `task_waitpid(pid)` while one of its children that match is a zombie. -/
def NoLostWakeUp (w : Callers) : Prop :=
  ∀ t ∈ w.kernel.taskList, ∀ pid, w.call t = some (.parked pid) → (w.kernel.tasks t).state = .waiting →
    (w.kernel.tasks t).waitKind = .child →
    ∀ c ∈ (w.kernel.tasks t).children, w.kernel.Matches pid c → (w.kernel.tasks c).state ≠ .zombie

/-- The task relies on being woken: it has scanned and will block, or has blocked. -/
def Relies (w : Callers) (t : ℕ) (pid : ℤ) : Prop :=
  w.call t = some (.scanned pid) ∨ (w.call t = some (.parked pid) ∧
    (w.kernel.tasks t).state = .waiting ∧ (w.kernel.tasks t).waitKind = .child)

/-- What holds between steps as long as no exit races a scan. -/
structure Inv (w : Callers) : Prop where
  core : w.kernel.Core
  tree : w.kernel.Tree
  idleCalls : w.call idle = none
  relies : ∀ t ∈ w.kernel.taskList, ∀ pid, w.Relies t pid →
    ∀ c ∈ (w.kernel.tasks t).children, w.kernel.Matches pid c → (w.kernel.tasks c).state ≠ .zombie

variable {w w' : Callers} {k k' : Kernel} {t c p : ℕ} {pid : ℤ} {a : Action}

theorem goesTo_call_self (w : Callers) (k : Kernel) (place : Option WaitCall) : (w.goesTo k place).call w.cur = place :=
  Function.update_self ..

theorem goesTo_call_of_ne (k : Kernel) (place : Option WaitCall) (h : t ≠ w.cur) :
    (w.goesTo k place).call t = w.call t := Function.update_of_ne h ..

/-- A task one of whose children has just exited does not wait for a child. -/
theorem not_waits_childExited (t : Task) : ¬(t.childExited.state = .waiting ∧ t.childExited.waitKind = .child) := by
  rw [Task.childExited]
  split
  · intro h
    cases h.1
  · rename_i h
    exact h

theorem ne_idle_of_relies (h : Inv w) (hrel : w.Relies t pid) : t ≠ idle := by
  intro hti
  rw [Relies, hti, h.idleCalls] at hrel
  rcases hrel with hcall | ⟨hcall, -⟩
  · cases hcall
  · cases hcall

/-- A task other than the current one relied on being woken before the step, if it does after. -/
theorem relied_of_ne (h : Inv w) (hstep : w.kernel.Step a k') (ht : t ≠ w.cur)
    (hrel : Relies ⟨k', w.call⟩ t pid) : w.Relies t pid := by
  rcases hrel with hcall | ⟨hcall, hwait, hkind⟩
  · exact .inl hcall
  · rcases waits_of_exec h.core h.tree hstep hwait with ⟨hwold, hkold⟩ | ⟨htc, -⟩
    · exact .inr ⟨hcall, hwold, hkold.symm.trans hkind⟩
    · exact absurd htc ht

/-- A zombie that a task who relied on being woken finds after the step is the current task, which has exited. -/
theorem Inv.exit_of_zombie (h : Inv w) (hstep : w.kernel.Step a k') (ht : t ∈ k'.taskList)
    (hrel : w.Relies t pid) (hc : c ∈ (k'.tasks t).children) (hm : k'.Matches pid c)
    (hz : (k'.tasks c).state = .zombie) :
    c = w.cur ∧ w.cur ≠ idle ∧ w.kernel.me.parent = some t ∧ w.kernel.Matches pid w.cur ∧
      ∃ code, a = .exit code := by
  rcases child_of_exec h.core h.tree hstep ht (ne_idle_of_relies h hrel) hc with ⟨htl, hcold, hpid⟩ | hready
  · have hmold : w.kernel.Matches pid c := by
      rw [Matches] at hm ⊢
      rw [← hpid]
      exact hm
    rcases zombie_of_exec h.core h.tree hstep hz with hzold | ⟨hcc, hci, hexit⟩
    · exact absurd hzold (h.relies t htl pid hrel c hcold hmold)
    · have hcur : w.cur = c := hcc.symm
      have hparent := (h.tree.child t htl c hcold).2
      rw [hcur, me, ← hcc]
      exact ⟨rfl, hci, hparent, hmold, hexit⟩
  · exact absurd (hready.symm.trans hz) (by decide)

/-- **A step of the kernel** that is no part of a call and no lost race keeps the invariant. -/
theorem Inv.kernelStep (h : Inv w) (hguard : a.interrupts = true ∨ w.call w.cur = none)
    (hraces : w.races (.kernel a) = false) (hstep : w.kernel.Step a k') : Inv ⟨k', w.call⟩ := by
  refine ⟨h.core.exec hstep, h.tree.exec h.core hstep, h.idleCalls, fun t ht pid hrel c hc hm hz => ?_⟩
  have hwas : w.Relies t pid := by
    by_cases htc : t = w.cur
    · rcases hrel with hcall | ⟨hcall, hwait, hkind⟩
      · exact .inl hcall
      · rcases waits_of_exec h.core h.tree hstep hwait with ⟨hwold, hkold⟩ | ⟨-, -, hblock⟩
        · exact .inr ⟨hcall, hwold, hkold.symm.trans hkind⟩
        · -- a task that blocks here is in no call
          have hown : a.interrupts = false := by
            rcases hblock with hblock | ⟨ms, hblock, -⟩
            · rw [hblock]
              rfl
            · rw [hblock]
              rfl
          rcases hguard with hint | hnone
          · rw [hown] at hint
            cases hint
          · rw [← htc] at hnone
            exact absurd (hnone.symm.trans hcall) (by simp)
    · exact relied_of_ne h hstep htc hrel
  obtain ⟨hcc, hcur, hparent, hmold, code, hexit⟩ := h.exit_of_zombie hstep ht hwas hc hm hz
  -- the child exits now: its parent is woken, unless it has only scanned
  rcases hrel with hcall | ⟨-, hwait, hkind⟩
  · have hscan : w.call t = some (.scanned pid) := hcall
    have hraced : w.races (.kernel a) = decide (w.kernel.Matches pid w.cur) := by
      rw [hexit, races, hparent]
      simp only [hscan]
    rw [hraced, decide_eq_false_iff_not] at hraces
    exact hraces hmold
  · rw [hexit] at hstep
    obtain ⟨-, rfl⟩ := of_guard hstep
    have he := h.tree.exited_exitWith h.core hcur code
    have htc : t ≠ w.kernel.current := by
      intro htc
      rw [htc] at hparent
      exact (h.tree.lawful _ h.core.current_mem).notOwn hparent
    have htask := he.parent t htc (ne_idle_of_relies h hwas) hparent
    refine not_waits_childExited (if t ∈ w.kernel.me.children then (w.kernel.tasks t).orphaned
      else w.kernel.tasks t) ⟨?_, ?_⟩
    · rw [← htask]
      exact hwait
    · rw [← htask]
      exact hkind

/-- A step of the current task inside its call keeps the invariant if the task itself does not miss a zombie. -/
theorem Inv.callStep (h : Inv w) (hstep : w.kernel.Step a k') (hexit : ∀ code, a ≠ .exit code)
    (hcur : w.cur ≠ idle) (place : Option WaitCall)
    (hown : ∀ pid, (w.goesTo k' place).Relies w.cur pid → ∀ c ∈ (k'.tasks w.cur).children,
      k'.Matches pid c → (k'.tasks c).state ≠ .zombie) : Inv (w.goesTo k' place) := by
  refine ⟨h.core.exec hstep, h.tree.exec h.core hstep, ?_, fun t ht pid hrel c hc hm hz => ?_⟩
  · rw [goesTo_call_of_ne _ _ (Ne.symm hcur)]
    exact h.idleCalls
  · by_cases htc : t = w.cur
    · rw [htc] at hrel hc
      exact hown pid hrel c hc hm hz
    · have hsame : Relies ⟨k', w.call⟩ t pid := by
        rw [Relies, goesTo_call_of_ne _ _ htc] at hrel
        exact hrel
      obtain ⟨-, -, -, -, code, ha⟩ := h.exit_of_zombie hstep ht (relied_of_ne h hstep htc hsame) hc hm hz
      exact hexit code ha

/-- A task whose call has ended does not rely on anything. -/
theorem not_relies_goesTo_none (k : Kernel) (pid : ℤ) : ¬(w.goesTo k none).Relies w.cur pid := by
  intro hrel
  rw [Relies, goesTo_call_self] at hrel
  rcases hrel with hcall | ⟨hcall, -⟩
  · cases hcall
  · cases hcall

theorem Inv.answered (h : Inv w) (hcan : w.CanScan pid) :
    Inv (w.goesTo (w.kernel.taskWaitpid pid).2 none) := by
  have hstep : w.kernel.Step (.waitpid pid) (w.kernel.taskWaitpid pid).2 := if_pos ⟨hcan.1, hcan.2.1⟩
  exact h.callStep hstep (by simp) hcan.2.1 none fun pid' hrel => absurd hrel (not_relies_goesTo_none _ pid')

/-- After a scan that found no zombie nothing has changed, and there is none. -/
theorem Inv.scanned (h : Inv w) (hcur : w.cur ≠ idle)
    (hnone : ∀ c ∈ w.kernel.me.children, w.kernel.Matches pid c → (w.kernel.tasks c).state ≠ .zombie) :
    Inv (w.goesTo w.kernel (some (.scanned pid))) := by
  refine ⟨h.core, h.tree, ?_, fun t ht pid' hrel => ?_⟩
  · rw [goesTo_call_of_ne _ _ (Ne.symm hcur)]
    exact h.idleCalls
  · by_cases htc : t = w.cur
    · rw [htc, Relies, goesTo_call_self] at hrel
      rcases hrel with hcall | ⟨hcall, -⟩
      · cases hcall
        rw [htc]
        exact hnone
      · cases hcall
    · rw [Relies, goesTo_call_of_ne _ _ htc] at hrel
      exact h.relies t ht pid' hrel

theorem Inv.park (h : Inv w) (hrun : w.kernel.me.state = .running) (hcall : w.call w.cur = some (.scanned pid)) :
    Inv (w.goesTo (w.kernel.taskBlock .child) (some (.parked pid))) := by
  have hstep : w.kernel.Step (.block .child) (w.kernel.taskBlock .child) := if_pos hrun
  have hwas : w.Relies w.cur pid := .inl hcall
  have hlist : w.cur ∈ (w.kernel.taskBlock .child).taskList := by
    rw [(calm_taskBlock hrun .child).taskList]
    exact h.core.current_mem
  refine h.callStep hstep (by simp) (ne_idle_of_relies h hwas) _ fun pid' hrel c hc hm hz => ?_
  have hpid : pid' = pid := by
    rw [Relies, goesTo_call_self] at hrel
    rcases hrel with hcall | ⟨hcall, -⟩
    · cases hcall
    · cases hcall
      rfl
  rw [hpid] at hm
  obtain ⟨-, -, -, -, code, ha⟩ := h.exit_of_zombie hstep hlist hwas hc hm hz
  cases ha

/-- What a pass of the loop comes to, for a caller of either kind. -/
theorem Inv.pass {k' : Kernel} {answer : WaitAnswer} (h : Inv w) (hcan : w.CanScan pid)
    (hpass : w.kernel.taskWaitpid pid = (answer, k')) :
    (answer ≠ .block → Inv (w.goesTo k' none)) ∧
      (answer = .block → k' = w.kernel ∧ Inv (w.goesTo w.kernel (some (.scanned pid)))) := by
  refine ⟨fun _ => ?_, fun hblock => ?_⟩
  · have hans := h.answered hcan
    rw [hpass] at hans
    exact hans
  · rcases taskWaitpid_cases w.kernel pid with ⟨hans, -⟩ | ⟨z, -, -, -, hans⟩ | ⟨hans, -, hnone⟩
    · rw [hpass, hblock] at hans
      cases hans
    · rw [hpass, hblock] at hans
      cases hans
    · rw [hpass] at hans
      exact ⟨(Prod.mk.inj hans).2, h.scanned hcan.2.1 hnone⟩

/-- **Every step** but a lost race keeps the invariant. -/
theorem Inv.step {a : CallAction} (h : Inv w) (hraces : w.races a = false) (hstep : w.Step a w') : Inv w' := by
  cases a with
  | kernel a =>
    obtain ⟨⟨-, hguard⟩, hmap⟩ := Option.ite_none_right_eq_some.mp hstep
    obtain ⟨k', hexec, rfl⟩ := Option.map_eq_some_iff.mp hmap
    exact h.kernelStep hguard hraces hexec
  | scan pid =>
    obtain ⟨⟨hcan, -⟩, hmatch⟩ := Option.ite_none_right_eq_some.mp hstep
    split at hmatch
    · rename_i hpass
      rw [← Option.some.inj hmatch]
      exact (h.pass hcan hpass).1 (by simp)
    · rename_i hpass
      obtain ⟨rfl, hinv⟩ := (h.pass hcan hpass).2 rfl
      rw [← Option.some.inj hmatch]
      exact hinv
  | park =>
    rw [Step, exec] at hstep
    split at hstep
    · rename_i pid hcall
      obtain ⟨hrun, hsome⟩ := Option.ite_none_right_eq_some.mp hstep
      rw [← Option.some.inj hsome]
      exact h.park hrun hcall
    · cases hstep
  | gate pid =>
    obtain ⟨⟨hcan, -⟩, hmatch⟩ := Option.ite_none_right_eq_some.mp hstep
    split at hmatch
    · rename_i hpass
      rw [← Option.some.inj hmatch]
      exact (h.pass hcan hpass).1 (by simp)
    · rename_i hpass
      obtain ⟨rfl, hinv⟩ := (h.pass hcan hpass).2 rfl
      -- the gate is a scan and a block with nothing in between
      have hpark := hinv.park hcan.1 (goesTo_call_self ..)
      rw [← Option.some.inj hmatch]
      rw [goesTo, show (w.goesTo w.kernel (some (.scanned pid))).call =
        Function.update w.call w.cur (some (.scanned pid)) from rfl] at hpark
      rw [show (w.goesTo w.kernel (some (.scanned pid))).cur = w.cur from rfl, Function.update_idem] at hpark
      exact hpark

theorem inv_boot (b : BootTasks) : Inv (boot b) := by
  refine ⟨core_kmain b, tree_kmain b, rfl, fun t _ pid hrel => ?_⟩
  rcases hrel with hcall | ⟨hcall, -⟩
  · cases hcall
  · cases hcall

end Callers

/-- **No wake-up is lost** in a run in which no task exits while its parent is between the scan and the block of a
call that waits for it: no task ever waits in `task_waitpid(pid)` while a child of it that matches is a zombie. -/
theorem noLostWakeUp_of_run (b : BootTasks) {w : Callers} {l : List (Callers × CallAction)}
    (h : Trace Callers.Step (.boot b) l w) (hraces : ∀ x ∈ l, x.1.races x.2 = false) : w.NoLostWakeUp := by
  have hinv : w.Inv := h.invariant (Callers.inv_boot b) fun x hx _ hi hstep => hi.step (hraces x hx) hstep
  exact fun t ht pid hcall hwait hkind => hinv.relies t ht pid (.inr ⟨hcall, hwait, hkind⟩)

/-- `init` spawns a child, scans for it and blocks. -/
def initParks : List CallAction :=
  [.kernel .scheduler, .kernel (.taskCreate 0 true true childSpace), .kernel (.spawnJoin 2 0x400000 0x700000),
    .scan 3, .park]

/-- `init` waits, and its child is no zombie. -/
theorem noLostWakeUp_of_run_initParks :
    ((runLast Callers.exec (.boot sampleBoot) initParks).kernel.tasks 1).state = .waiting ∧
      ((runLast Callers.exec (.boot sampleBoot) initParks).kernel.tasks 2).state ≠ .zombie := by
  have hrun : Trace Callers.Step (.boot sampleBoot) (runPassed Callers.exec (.boot sampleBoot) initParks)
      (runLast Callers.exec (.boot sampleBoot) initParks) := trace_runLast (by decide)
  have hlost := noLostWakeUp_of_run sampleBoot hrun (by decide)
  exact ⟨by decide, hlost 1 (by decide) 3 (by decide) (by decide) (by decide) 2 (by decide) (by decide)⟩

/-- `init` spawns a child and scans for it; its time is up, the child runs and exits, and `init` blocks. -/
def childExitsFirst : List CallAction :=
  [.kernel .scheduler, .kernel (.taskCreate 0 true true childSpace), .kernel (.spawnJoin 2 0x400000 0x700000),
    .scan 3, .kernel .scheduler, .kernel .scheduler, .kernel .scheduler, .kernel .scheduler, .kernel .scheduler,
    .kernel (.exit 7), .kernel .scheduler, .park]

/-- `init` waits for its child, and the child is a zombie. -/
theorem lostWakeUp_childExitsFirst :
    ∃ w, Reaches Callers.Step (.boot sampleBoot) w ∧ 1 ∈ w.kernel.taskList ∧ w.call 1 = some (.parked 3) ∧
      (w.kernel.tasks 1).state = .waiting ∧ (w.kernel.tasks 1).waitKind = .child ∧
      2 ∈ (w.kernel.tasks 1).children ∧ w.kernel.Matches 3 2 ∧ (w.kernel.tasks 2).state = .zombie := by
  have hrun : Trace Callers.Step (.boot sampleBoot) (runPassed Callers.exec (.boot sampleBoot) childExitsFirst)
      (runLast Callers.exec (.boot sampleBoot) childExitsFirst) := trace_runLast (by decide +kernel)
  refine ⟨_, hrun.reaches .start, ?_, ?_, ?_, ?_, ?_, ?_, ?_⟩ <;> decide +kernel

end LizardOs.Sched
