import LizardOs.Sched.Scheduler

/-!
# Nobody is overtaken

The scheduler walks the ring of tasks from the current one.  While a ready task `b` is not switched to, the walk
meets `b` before it meets `a`: this holds right after `a` was switched to, and survives new tasks at the head of
the list, the reaper, and every switch to a third task.
-/

namespace LizardOs.Sched

open LizardOs.Lib

namespace Kernel

variable {k k' : Kernel} {a b n : ℕ}

/-- Task `b` is ready, and the walk from the current task does not meet `a` before it. -/
structure Ahead (a b : ℕ) (k : Kernel) : Prop where
  core : Core k
  ready : (k.tasks b).state = .ready
  notIdle : b ≠ idle
  old : a < k.nextTask
  first : NotBefore (rotateFrom k.current k.taskList) a b

theorem Ahead.mem (h : Ahead a b k) : b ∈ k.taskList :=
  ((mem_rotateFrom h.core.nodup h.core.current_mem).mp h.first.mem).1

theorem Ahead.notCurrent (h : Ahead a b k) : b ≠ k.current :=
  ((mem_rotateFrom h.core.nodup h.core.current_mem).mp h.first.mem).2

/-- Steps that keep the list and the current task and leave `b` ready. -/
theorem Ahead.same (h : Ahead a b k) (hcore : Core k') (hlist : k'.taskList = k.taskList)
    (hcur : k'.current = k.current) (hnext : k'.nextTask = k.nextTask)
    (hready : (k'.tasks b).state = .ready) : Ahead a b k' := by
  refine ⟨hcore, hready, h.notIdle, hnext ▸ h.old, ?_⟩
  rw [hlist, hcur]
  exact h.first

theorem Ahead.tame (h : Ahead a b k) (ht : Tame k k') : Ahead a b k' :=
  h.same (h.core.tame ht) ht.taskList ht.current ht.nextTask (ht.ready b h.notCurrent h.ready)

theorem Ahead.taskCreate (h : Ahead a b k) (entryPoint : ℕ) (isUser onHeap : Bool) (space : AddrSpace) :
    Ahead a b (k.taskCreate entryPoint isUser onHeap space) := by
  have hb : b ≠ k.nextTask := fun hb => h.core.nextTask_not_mem (hb ▸ h.mem)
  have hcur : k.nextTask ≠ k.current := fun hc => h.core.nextTask_not_mem (hc ▸ h.core.current_mem)
  refine ⟨h.core.taskCreate entryPoint isUser onHeap space, ?_, h.notIdle, Nat.lt_succ_of_lt h.old, ?_⟩
  · rw [taskCreate_of_ne hb]
    exact h.ready
  · show NotBefore (rotateFrom k.current (k.nextTask :: k.taskList)) a b
    rw [rotateFrom_cons hcur]
    exact h.first.insert (Nat.ne_of_lt h.old)

theorem Ahead.reaped {l : List ℕ} (h : Ahead a b k) (hr : Reaped k k' l) : Ahead a b k' := by
  have hkeep : ∀ x, ¬k.Doomed x → (!decide (x ∈ l ∧ k.Doomed x)) = true := by
    intro x hx
    simp [hx]
  have hb : ¬k.Doomed b := by
    intro hd
    exact absurd (hd.2.2.symm.trans h.ready) (by decide)
  refine ⟨h.core.reaped hr, ?_, h.notIdle, hr.nextTask ▸ h.old, ?_⟩
  · rw [hr.state]
    exact h.ready
  · rw [hr.current, hr.taskList,
      rotateFrom_filter (fun t => !decide (t ∈ l ∧ k.Doomed t)) (hkeep _ fun hd => hd.2.1 rfl)]
    exact h.first.filter (hkeep b hb)

/-- **A switch** to a task other than `b` is not to `a`, and `b` stays ahead. -/
theorem Ahead.switched (h : Ahead a b k) (hs : Switched k k' n) (hn : k.nextReadyTask = some n)
    (hb : n ≠ b) : n ≠ a ∧ Ahead a b k' := by
  obtain ⟨-, -, p, q, hpq, hp⟩ := nextReadyTask_some hn
  have hbp : b ∉ p := fun hmem => hp b hmem ⟨h.ready, h.notIdle⟩
  have hnmem : n ∈ k.taskList := by
    have hwalk : n ∈ rotateFrom k.current k.taskList := by
      rw [hpq]
      simp
    exact ((mem_rotateFrom h.core.nodup h.core.current_mem).mp hwalk).1
  obtain ⟨hna, hfirst⟩ := h.first.move h.core.nodup h.core.current_mem hpq hbp hb
  refine ⟨hna, h.core.switched hs hnmem, ?_, h.notIdle, hs.nextTask ▸ h.old, ?_⟩
  · rw [hs.others b (Ne.symm hb) h.notCurrent]
    exact h.ready
  · rw [hs.current, hs.taskList]
    exact hfirst

/-- **A call of `scheduler`** that does not switch to `b` does not switch to `a` either. -/
theorem Ahead.scheduler (h : Ahead a b k) (hb : k.schedule.1 ≠ some b) :
    k.schedule.1 ≠ some a ∧ Ahead a b k.scheduler := by
  obtain ⟨kr, hr, -, hcases⟩ := schedule_cases h.core
  have hahead := h.reaped hr
  rcases hcases with ⟨k', hsch, ht, -⟩ | ⟨n, k', hsch, hs, -, -, hwhy⟩
  · rw [Kernel.scheduler, hsch]
    exact ⟨by simp, hahead.tame ht.calm.tame⟩
  · have hnb : n ≠ b := fun hn => hb (by rw [hsch, hn])
    rw [Kernel.scheduler, hsch]
    rcases hwhy with hready | ⟨-, hnone, -⟩
    · obtain ⟨hna, hahead'⟩ := hahead.switched hs hready hnb
      exact ⟨fun hn => hna (Option.some.inj hn), hahead'⟩
    · exact absurd hahead.ready (nextReadyTask_none hnone hahead.first.mem hahead.notIdle)

/-- Every step but a switch to `b` keeps `b` ahead. -/
theorem Ahead.exec {c : Action} (h : Ahead a b k) (hstep : k.Step c k')
    (hb : c = .scheduler → k.schedule.1 ≠ some b) : Ahead a b k' := by
  cases c with
  | taskCreate entryPoint isUser onHeap space =>
    obtain ⟨-, rfl⟩ := of_guard hstep
    exact h.taskCreate entryPoint isUser onHeap space
  | scheduler =>
    obtain rfl := Option.some.inj hstep
    exact (h.scheduler (hb rfl)).2
  | _ => exact h.tame (tame_of_exec h.core hstep (by simp) (by simp))

end Kernel

open Kernel

/-- **Round robin without overtaking.**  If `scheduler` switches to a task `a`, and later to `a` again, then every
other task `b` that was ready the first time has been switched to in between; here other tasks may have been
created, woken, blocked, ended and reaped meanwhile. -/
theorem dispatched_between (boot : BootTasks) {k k₂ : Kernel} {a b : ℕ} {l : List (Kernel × Action)}
    (hk : Reaches Step boot.kmain k) (ha : k.schedule.1 = some a) (hb : b ∈ k.scheduler.taskList)
    (hbi : b ≠ idle) (hba : b ≠ a) (hready : (k.scheduler.tasks b).state = .ready)
    (hrun : Trace Step k.scheduler l k₂) (hagain : k₂.schedule.1 = some a) :
    ∃ x ∈ l, x.2 = .scheduler ∧ x.1.schedule.1 = some b := by
  have hcore := core_of_reaches boot hk
  have hcur := current_of_schedule hcore ha
  have hcore' := hcore.scheduler
  -- right after the switch the walk starts at `a`, so it meets `b` without meeting `a`
  have hstart : Ahead a b k.scheduler := by
    have hmem : b ∈ rotateFrom k.scheduler.current k.scheduler.taskList :=
      (mem_rotateFrom hcore'.nodup hcore'.current_mem).mpr ⟨hb, by rw [hcur]; exact hba⟩
    have hnot : a ∉ rotateFrom k.scheduler.current k.scheduler.taskList := by
      rw [mem_rotateFrom hcore'.nodup hcore'.current_mem, hcur]
      exact fun h => h.2 rfl
    exact ⟨hcore', hready, hbi, hcur ▸ hcore'.fresh _ hcore'.current_mem, notBefore_of_not_mem hmem hnot⟩
  by_contra hnone
  have hno : ∀ x ∈ l, x.2 = .scheduler → x.1.schedule.1 ≠ some b :=
    fun x hx h1 h2 => hnone ⟨x, hx, h1, h2⟩
  have hend : Ahead a b k₂ :=
    hrun.invariant hstart fun x hx s₂ hi hstep => hi.exec hstep (hno x hx)
  have hnext : k₂.schedule.1 ≠ some b := by
    rw [hagain]
    exact fun h => hba (Option.some.inj h).symm
  exact (hend.scheduler hnext).1 hagain

/-- A page table and a kernel stack for a third task. -/
def thirdSpace : AddrSpace := ⟨0x4000, 0x40000, by decide⟩

/-- `init` starts a third task and waits; the third task sleeps, and both are woken. -/
def twoReady : Kernel :=
  sampleBoot.kmain.last [.scheduler, .taskCreate 0x300 false false thirdSpace, .taskSetReady 2, .block .child,
    .scheduler, .wake 1, .block .sleep, .wake 2]

/-- `init` waits and is woken, and the third task runs until it sleeps. -/
def oneRound : List Action := [.block .child, .wake 1, .scheduler, .block .sleep]

/-- `init` is switched to, and switched to again after a round in which the third task had its turn. -/
theorem dispatched_between_oneRound :
    twoReady.schedule.1 = some 1 ∧ (twoReady.scheduler.last oneRound).schedule.1 = some 1 ∧
      ∃ x ∈ twoReady.scheduler.passed oneRound, x.2 = .scheduler ∧ x.1.schedule.1 = some 2 := by
  have hreach : Reaches Step sampleBoot.kmain twoReady := (trace_last (by decide)).reaches .start
  have hfirst : twoReady.schedule.1 = some 1 := by decide
  have hagain : (twoReady.scheduler.last oneRound).schedule.1 = some 1 := by decide
  exact ⟨hfirst, hagain, dispatched_between sampleBoot hreach hfirst (by decide) (by decide) (by decide)
    (by decide) (trace_last (by decide)) hagain⟩

end LizardOs.Sched
