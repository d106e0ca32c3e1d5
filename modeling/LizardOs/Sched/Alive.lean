import LizardOs.Sched.ProcessTree

/-!
# Who can still act

A task acts between the moment it becomes ready and its exit.  No step but its own exit ends that: the reaper takes
only the dead, a zombie that is collected was dead before, and a failed `spawn` ends a task that never ran.
-/

namespace LizardOs.Sched

namespace Kernel

variable {k k' : Kernel} {t n : ℕ}

/-- The task is in the list, and is neither new nor dead. -/
def Alive (k : Kernel) (t : ℕ) : Prop := t ∈ k.taskList ∧ (k.tasks t).state ∉ [TaskState.zombie, .terminated, .new]

/-- A task whose state stays, or becomes one of a task that acts, stays alive. -/
theorem Alive.of_state (h : Alive k t) (hlist : k'.taskList = k.taskList)
    (hstate : (k'.tasks t).state = (k.tasks t).state ∨ (k'.tasks t).state = .ready ∨
      (k'.tasks t).state = .waiting ∨ (k'.tasks t).state = .running) : Alive k' t := by
  refine ⟨hlist ▸ h.1, ?_⟩
  obtain hst | hst | hst | hst := hstate
  · rw [hst]
    exact h.2
  · rw [hst]
    decide
  · rw [hst]
    decide
  · rw [hst]
    decide

theorem Alive.calm (h : Alive k t) (hc : Calm k k') : Alive k' t := by
  refine h.of_state hc.taskList ?_
  obtain ⟨hst, -⟩ | ⟨-, hst⟩ | ⟨-, -, -, hst⟩ := hc.moves t
  · exact .inl hst
  · exact .inr (.inl hst)
  · exact .inr (.inr (.inl hst))

theorem Alive.taskCreate (h : Alive k t) (hcore : Core k) (entryPoint : ℕ) (isUser onHeap : Bool) (space : AddrSpace) :
    Alive (k.taskCreate entryPoint isUser onHeap space) t := by
  have hne : t ≠ k.nextTask := by
    intro heq
    exact hcore.nextTask_not_mem (heq ▸ h.1)
  refine ⟨List.mem_cons_of_mem _ h.1, ?_⟩
  rw [taskCreate_of_ne hne]
  exact h.2

theorem Alive.reaped {l : List ℕ} (h : Alive k t) (hr : Reaped k k' l) : Alive k' t := by
  refine ⟨hr.mem.mpr ⟨h.1, fun hd => ?_⟩, ?_⟩
  · have hst : (k.tasks t).state = .terminated := hd.2.2.2
    apply h.2
    rw [hst]
    decide
  · rw [hr.state]
    exact h.2

theorem Alive.switched (h : Alive k t) (hs : Switched k k' n) : Alive k' t := by
  refine h.of_state hs.taskList ?_
  by_cases htn : t = n
  · rw [htn]
    exact .inr (.inr (.inr hs.next))
  · by_cases htc : t = k.current
    · rw [htc, hs.cur]
      split
      · exact .inr (.inl rfl)
      · exact .inl rfl
    · exact .inl (hs.others t htn htc)

theorem Alive.scheduler (h : Alive k t) (hcore : Core k) : Alive k.scheduler t := by
  obtain ⟨kr, hr, -, ⟨k', hsch, ht, -⟩ | ⟨n, k', hsch, hs, -⟩⟩ := schedule_cases hcore
  · rw [Kernel.scheduler, hsch]
    exact (h.reaped hr).calm ht.calm
  · rw [Kernel.scheduler, hsch]
    exact (h.reaped hr).switched hs

/-- An orphan is alive as before. -/
theorem orphaned_state {x : Task} (h : x.state ∉ [TaskState.zombie, .terminated, .new]) : x.orphaned.state = x.state := by
  have hz : x.state ≠ .zombie := by
    intro heq
    apply h
    rw [heq]
    decide
  exact if_neg hz

theorem childExited_state_cases (x : Task) : x.childExited.state = x.state ∨ x.childExited.state = .ready := by
  rw [Task.childExited]
  split
  · exact .inr rfl
  · exact .inl rfl

theorem Alive.exited {code : ℤ} (h : Alive k t) (he : Exited k k' code) (htc : t ≠ k.current) : Alive k' t := by
  have hkeep : (if t ∈ k.me.children then (k.tasks t).orphaned else k.tasks t).state = (k.tasks t).state := by
    split
    · exact orphaned_state h.2
    · rfl
  refine h.of_state he.rest.taskList ?_
  by_cases hti : t = idle
  · rw [hti, he.idle]
    exact .inl rfl
  · by_cases hp : k.me.parent = some t
    · rw [he.parent t htc hti hp]
      obtain hst | hst := childExited_state_cases (if t ∈ k.me.children then (k.tasks t).orphaned else k.tasks t)
      · exact .inl (hst.trans hkeep)
      · exact .inr (.inl hst)
    · rw [he.others t htc hti hp]
      exact .inl hkeep

/-- **No step ends a task but its own exit.** -/
theorem Alive.exec {a : Action} (h : Alive k t) (hcore : Core k) (htree : Tree k) (hstep : k.Step a k')
    (hexit : ∀ code, a = .exit code → t ≠ k.current) : Alive k' t := by
  cases a with
  | taskCreate entryPoint isUser onHeap space =>
    obtain ⟨-, rfl⟩ := of_guard hstep
    exact h.taskCreate hcore entryPoint isUser onHeap space
  | spawnJoin c rip rsp =>
    obtain ⟨⟨hrun, -, -, hnew⟩, rfl⟩ := of_guard hstep
    have hc : c ≠ k.current := by
      intro hcur
      rw [hcur] at hnew
      exact absurd (hrun.symm.trans hnew) (by decide)
    refine h.of_state (spawnJoin_rest k c rip rsp).taskList ?_
    rw [(spawnJoin_state hc hnew rip rsp t).1]
    split
    · exact .inr (.inl rfl)
    · exact .inl rfl
  | spawnFail c =>
    obtain ⟨⟨-, -, hnew⟩, rfl⟩ := of_guard hstep
    have htc : t ≠ c := by
      rintro rfl
      apply h.2
      rw [hnew]
      decide
    refine h.of_state rfl (.inl ?_)
    rw [spawnFail, setTask_of_ne _ htc]
  | exit code =>
    obtain ⟨-, rfl⟩ := of_guard hstep
    have htc := hexit code rfl
    by_cases hcur : k.current = idle
    · rw [exitWith_idle hcur]
      refine h.of_state rfl (.inl ?_)
      rw [setTask_of_ne _ (hcur ▸ htc)]
    · exact h.exited (htree.exited_exitWith hcore hcur code) htc
  | waitpid pid =>
    obtain ⟨⟨hrun, -⟩, rfl⟩ := of_guard hstep
    obtain ⟨hw, -⟩ | ⟨z, -, -, hzombie, hw⟩ | ⟨hw, -⟩ := taskWaitpid_cases k pid
    · rw [hw]
      exact h
    · have hz : z ≠ k.current := by
        intro heq
        rw [heq] at hzombie
        exact absurd (hrun.symm.trans hzombie) (by decide)
      have htz : t ≠ z := by
        rintro rfl
        apply h.2
        rw [hzombie]
        decide
      rw [hw]
      refine h.of_state (collect_rest k z).taskList (.inl ?_)
      rw [(collect_state hz t).1, if_neg htz]
    · rw [hw]
      exact h
  | scheduler =>
    obtain rfl := Option.some.inj hstep
    exact h.scheduler hcore
  | entry | taskSetReady | block | sleep | wake | wakeAll | tick =>
    exact h.calm (calm_of_exec hcore.idleUser hstep trivial)

/-- A task is a user task from its creation on. -/
theorem isUser_of_exec {a : Action} (hcore : Core k) (hstep : k.Step a k') (ht : t ≠ k.nextTask) :
    (k'.tasks t).isUser = (k.tasks t).isUser := by
  cases a with
  | taskCreate entryPoint isUser onHeap space =>
    obtain ⟨-, rfl⟩ := of_guard hstep
    rw [taskCreate_of_ne ht]
  | scheduler =>
    obtain rfl := Option.some.inj hstep
    obtain ⟨kr, hr, -, ⟨k', hsch, hticked, -⟩ | ⟨n, k', hsch, hs, -⟩⟩ := schedule_cases hcore
    · rw [Kernel.scheduler, hsch, hticked.calm.tame.isUser, hr.tasks]
      rfl
    · rw [Kernel.scheduler, hsch, (Task.links_inj (hs.links t)).2.2.1, hr.tasks]
      rfl
  | _ => exact (tame_of_exec hcore hstep (by simp) (by simp)).isUser t

end Kernel

end LizardOs.Sched
