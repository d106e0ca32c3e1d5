import LizardOs.Sched.RoundRobin

/-!
# Voluntary yields

`task_yield` raises the interrupt that a timer tick also ends in, so it enters `scheduler` like a tick: it spends
one tick of the caller's quantum, and the caller goes on while any of it is left.  The caller gives way exactly
when its quantum is nearly spent.
-/

namespace LizardOs.Sched

open LizardOs.Lib

namespace Kernel

variable {k k' : Kernel} {t : ℕ}

/-- `task_yield`: `int 48` publishes the caller's trap frame and enters `scheduler`. -/
def taskYield (k : Kernel) (frame : CpuState) : Kernel := ({ k with frame := frame } : Kernel).scheduler

/-- The same state with another remaining quantum of the current task. -/
def withQuantum (k : Kernel) (quantum : ℕ) : Kernel :=
  k.setTask k.current fun t => { t with ticksRemaining := quantum }

/-- A yield gives way: another task runs when it returns, the caller is ready, and that task would run as well
had `quantum` ticks been left to the caller. -/
structure Yields (k : Kernel) (frame : CpuState) (quantum : ℕ) : Prop where
  other : (k.taskYield frame).current ≠ k.current
  runs : (k.taskYield frame).me.state = .running
  ready : ((k.taskYield frame).tasks k.current).state = .ready
  quantum : ((k.withQuantum quantum).taskYield frame).current = (k.taskYield frame).current

/-! ### What the quantum decides -/

/-- The choice of a running task's `scheduler`: nobody while more than this tick is left of its quantum. -/
theorem pick_fst (hrun : k.me.state = .running) (hidle : k.current ≠ idle) :
    k.pick.1 = if k.me.ticksRemaining ≤ 1 then k.nextReadyTask else none := by
  set k₁ := k.setTask k.current fun t => { t with ticksRemaining := t.ticksRemaining - 1 } with hk₁
  have hticked : Ticked k k₁ := (Ticked.refl k).setTask _ _
  have hready := nextReadyTask_congr hticked.taskList hticked.current hticked.state
  have hticks : k₁.me.ticksRemaining = k.me.ticksRemaining - 1 := by
    show (k₁.tasks k.current).ticksRemaining = _
    rw [hk₁, setTask_self]
    rfl
  have hspend : (if decide (k.me.state = .running) = true ∧ k.current ≠ idle then k₁ else k) = k₁ :=
    if_pos ⟨decide_eq_true hrun, hidle⟩
  rw [pick]
  simp only [← hk₁, hspend, hticks, hready]
  by_cases hspent : k.me.ticksRemaining ≤ 1
  · rw [if_pos hspent, if_neg fun h => h.2.2 (by omega)]
    cases k.nextReadyTask with
    | some n => rfl
    | none =>
      show (if decide (k.me.state = .running) = true then _ else _ : Option ℕ × Kernel).1 = none
      rw [if_pos (decide_eq_true hrun)]
  · rw [if_neg hspent, if_pos ⟨decide_eq_true hrun, hidle, by omega⟩]

theorem schedule_fst (h : Core k) (hrun : k.me.state = .running) (hidle : k.current ≠ idle) :
    k.schedule.1 = if k.me.ticksRemaining ≤ 1 then k.reapTerminated.nextReadyTask else none := by
  have hr := reaped_reapTerminated k
  have hme : k.reapTerminated.me = k.me.keepChildren fun c =>
      !decide (c ∈ k.taskList ∧ k.Doomed c ∧ (k.tasks c).siblingLinked = true) := by
    rw [me, hr.current, hr.tasks]
    rfl
  have hpick := pick_fst (k := k.reapTerminated) (by rw [hme]; exact hrun) (by rw [hr.current]; exact hidle)
  rw [schedule, if_neg (by rw [h.enabled]; decide), hpick, hme]
  rfl

theorem current_scheduler (h : Core k) : k.scheduler.current = k.schedule.1.getD k.current := by
  obtain ⟨kr, hr, -, ⟨k', hsch, ht, -⟩ | ⟨n, k', hsch, hs, -⟩⟩ := schedule_cases h
  · rw [Kernel.scheduler, hsch]
    exact ht.current.trans hr.current
  · rw [Kernel.scheduler, hsch]
    exact hs.current

/-- The walk of `next_ready_task` behind the reaper looks at the list, the current task and the states only. -/
theorem nextReadyTask_reaped_congr (hlist : k'.taskList = k.taskList) (hcur : k'.current = k.current)
    (hstate : ∀ x, (k'.tasks x).state = (k.tasks x).state) :
    k'.reapTerminated.nextReadyTask = k.reapTerminated.nextReadyTask := by
  have hr := reaped_reapTerminated k
  have hr' := reaped_reapTerminated k'
  have hdoomed : ∀ x, k'.Doomed x ↔ k.Doomed x := fun x => by rw [Doomed, Doomed, hcur, hstate]
  refine nextReadyTask_congr ?_ (by rw [hr'.current, hr.current, hcur])
    fun x => by rw [hr'.state, hr.state, hstate]
  rw [hr'.taskList, hr.taskList, hlist]
  simp only [hdoomed]

/-- While another task is ready, `next_ready_task` finds one, and it is not the caller. -/
theorem nextReadyTask_reaped (h : Core k) (hrun : k.me.state = .running) (ht : t ∈ k.taskList)
    (hti : t ≠ idle) (hready : (k.tasks t).state = .ready) :
    ∃ n, k.reapTerminated.nextReadyTask = some n ∧ n ≠ k.current := by
  have hr := reaped_reapTerminated k
  have hcore := h.reaped hr
  have htc : t ≠ k.current := by
    intro htc
    rw [me, ← htc, hready] at hrun
    cases hrun
  have hmem : t ∈ k.reapTerminated.taskList := by
    refine hr.mem.mpr ⟨ht, fun hd => ?_⟩
    rw [hd.2.2.2] at hready
    cases hready
  have hwalk : t ∈ rotateFrom k.reapTerminated.current k.reapTerminated.taskList :=
    (mem_rotateFrom hcore.nodup hcore.current_mem).mpr ⟨hmem, by rw [hr.current]; exact htc⟩
  cases hnext : k.reapTerminated.nextReadyTask with
  | none => exact absurd (hr.state t ▸ hready) (nextReadyTask_none hnext hwalk hti)
  | some n =>
    refine ⟨n, rfl, fun hn => ?_⟩
    have hstate := (nextReadyTask_some hnext).1
    rw [hr.state, hn] at hstate
    rw [me, hstate] at hrun
    cases hrun

/-! ### What a yield comes to -/

/-- Who runs when a yield returns. -/
theorem taskYield_current (h : Core k) (hrun : k.me.state = .running) (hidle : k.current ≠ idle)
    (frame : CpuState) :
    (k.taskYield frame).current =
      if k.me.ticksRemaining ≤ 1 then k.reapTerminated.nextReadyTask.getD k.current else k.current := by
  set kf : Kernel := { k with frame := frame }
  have hcore : Core kf := h.exec (a := .entry frame) rfl
  have hnext : kf.reapTerminated.nextReadyTask = k.reapTerminated.nextReadyTask :=
    nextReadyTask_reaped_congr rfl rfl fun _ => rfl
  have hfst := schedule_fst hcore hrun hidle
  rw [hnext] at hfst
  rw [taskYield, current_scheduler hcore, hfst]
  show (if k.me.ticksRemaining ≤ 1 then _ else _ : Option ℕ).getD k.current = _
  split <;> rfl

/-- A yield that gives way leaves its caller ready and the other task running. -/
theorem taskYield_switched (h : Core k) (hrun : k.me.state = .running) (hidle : k.current ≠ idle)
    (frame : CpuState) (hother : (k.taskYield frame).current ≠ k.current) :
    (k.taskYield frame).me.state = .running ∧ ((k.taskYield frame).tasks k.current).state = .ready := by
  set kf : Kernel := { k with frame := frame } with hkf
  have hcore : Core kf := h.exec (a := .entry frame) rfl
  obtain ⟨kr, hr, -, ⟨k', hsch, ht, -⟩ | ⟨n, k', hsch, hs, -⟩⟩ := schedule_cases hcore
  · rw [taskYield, ← hkf, Kernel.scheduler, hsch] at hother
    exact absurd (ht.current.trans hr.current) hother
  · have hcur : kr.current = k.current := hr.current
    have hmeState : kr.me.state = .running := by
      rw [me, hr.state, hcur]
      exact hrun
    have hafter := hs.cur
    rw [if_pos ⟨hmeState, hcur ▸ hidle⟩, hcur] at hafter
    rw [taskYield, ← hkf, Kernel.scheduler, hsch]
    refine ⟨?_, hafter⟩
    rw [me, hs.current]
    exact hs.next

/-- Another quantum changes nothing the choice looks at but the quantum. -/
theorem withQuantum_current (h : Core k) (hrun : k.me.state = .running) (hidle : k.current ≠ idle)
    (frame : CpuState) (quantum : ℕ) :
    ((k.withQuantum quantum).taskYield frame).current =
      if quantum ≤ 1 then k.reapTerminated.nextReadyTask.getD k.current else k.current := by
  have hticked : Ticked k (k.withQuantum quantum) := (Ticked.refl k).setTask k.current fun _ => quantum
  have hnext : (k.withQuantum quantum).reapTerminated.nextReadyTask = k.reapTerminated.nextReadyTask :=
    nextReadyTask_reaped_congr hticked.taskList hticked.current hticked.state
  have hquantum : (k.withQuantum quantum).me.ticksRemaining = quantum := by
    show ((k.withQuantum quantum).tasks k.current).ticksRemaining = quantum
    rw [withQuantum, setTask_self]
  rw [taskYield_current (h.tame hticked.calm.tame) (hticked.me_state.trans hrun) hidle, hnext, hquantum]
  rfl

end Kernel

open Kernel

/-- **A yield gives way exactly when the quantum is nearly spent.**  In every reachable state in which a task
other than `idle` runs and another is ready, `task_yield` hands over to another task, and would do so with
`quantum` ticks left as well, exactly when at most one tick is left of the caller's quantum and `quantum` is at
most one tick. -/
theorem yields_iff (boot : BootTasks) {k : Kernel} {t : ℕ} (h : Reaches Step boot.kmain k)
    (hrun : k.me.state = .running) (hidle : k.current ≠ idle) (ht : t ∈ k.taskList) (hti : t ≠ idle)
    (hready : (k.tasks t).state = .ready) (frame : CpuState) (quantum : ℕ) :
    Yields k frame quantum ↔ k.me.ticksRemaining ≤ 1 ∧ quantum ≤ 1 := by
  have hcore := core_of_reaches boot h
  obtain ⟨n, hnext, hn⟩ := nextReadyTask_reaped hcore hrun ht hti hready
  have hcurrent := taskYield_current hcore hrun hidle frame
  have hquantum := withQuantum_current hcore hrun hidle frame quantum
  rw [hnext, Option.getD_some] at hcurrent hquantum
  constructor
  · intro hy
    have hspent : k.me.ticksRemaining ≤ 1 := by
      by_contra hleft
      rw [if_neg hleft] at hcurrent
      exact hy.other hcurrent
    refine ⟨hspent, ?_⟩
    by_contra hleft
    rw [if_pos hspent] at hcurrent
    rw [if_neg hleft] at hquantum
    exact hn (hcurrent.symm.trans (hy.quantum.symm.trans hquantum))
  · rintro ⟨hspent, hspentToo⟩
    rw [if_pos hspent] at hcurrent
    rw [if_pos hspentToo] at hquantum
    have hother : (k.taskYield frame).current ≠ k.current := hcurrent ▸ hn
    obtain ⟨hruns, hcaller⟩ := taskYield_switched hcore hrun hidle frame hother
    exact ⟨hother, hruns, hcaller, hquantum.trans hcurrent.symm⟩

/-- `init` has just been switched to, and the third task is ready. -/
def initRuns : Kernel := twoReady.scheduler

theorem reaches_initRuns : Reaches Step sampleBoot.kmain initRuns := by
  have hreach : Reaches Step sampleBoot.kmain twoReady := (trace_last (by decide)).reaches .start
  exact hreach.next (show Step twoReady .scheduler _ from rfl)

/-- `init` at the last tick of its quantum. -/
def lastTick : Kernel := initRuns.last [.scheduler, .scheduler, .scheduler, .scheduler]

/-- At its last tick `init` gives way to the third task. -/
theorem yields_iff_lastTick : Yields lastTick .zero 0 := by
  have hlast : Reaches Step sampleBoot.kmain lastTick := (trace_last (by decide)).reaches reaches_initRuns
  exact (yields_iff sampleBoot (t := 2) hlast (by decide +kernel) (by decide +kernel) (by decide +kernel)
    (by decide) (by decide +kernel) .zero 0).mpr ⟨by decide +kernel, by decide⟩

/-- With its whole quantum left, `init` goes on after a yield although the third task is ready. -/
theorem not_yields_initRuns :
    Reaches Step sampleBoot.kmain initRuns ∧ initRuns.me.state = .running ∧ initRuns.current ≠ idle ∧
      2 ∈ initRuns.taskList ∧ (initRuns.tasks 2).state = .ready ∧ ¬Yields initRuns .zero 1 := by
  have hsame : (initRuns.taskYield .zero).current = initRuns.current := by decide
  exact ⟨reaches_initRuns, by decide, by decide, by decide, by decide, fun hy => hy.other hsame⟩

end LizardOs.Sched
