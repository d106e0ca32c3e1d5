import LizardOs.Sched.Wait

/-!
# What a step can do to a waiting task, a zombie and a list of children

A task waits after a step only if it waited before, for the same thing, or is the current one and blocks.  A task
is a zombie only if it was one before, or is the current one and exits.  A list of children grows only by a
spawn, and that of `idle` by an exit.
-/

namespace LizardOs.Sched

open LizardOs.Lib

namespace Kernel

variable {k k' : Kernel} {t x c n p : ℕ} {a : Action}

/-- The task waited already, for the same thing. -/
def StillWaits (k k' : Kernel) (x : ℕ) : Prop :=
  (k'.tasks x).state = .waiting →
    (k.tasks x).state = .waiting ∧ (k'.tasks x).waitKind = (k.tasks x).waitKind

theorem StillWaits.of_eq (h : k'.tasks x = k.tasks x) : StillWaits k k' x := by
  intro hw
  rw [h] at hw ⊢
  exact ⟨hw, rfl⟩

theorem StillWaits.of_state {s : TaskState} (h : (k'.tasks x).state = s) (hst : s ≠ .waiting) :
    StillWaits k k' x := by
  intro hw
  rw [h] at hw
  exact absurd hw hst

theorem stillWaits_taskSetReady (k : Kernel) (t x : ℕ) : StillWaits k (k.taskSetReady t) x := by
  rw [taskSetReady]
  split
  · by_cases hx : x = t
    · rw [hx]
      exact .of_state (s := .ready) (by rw [setTask_self]) (by decide)
    · exact .of_eq (setTask_of_ne _ hx)
  · exact .of_eq rfl

theorem stillWaits_taskWake (k : Kernel) (t x : ℕ) : StillWaits k (k.taskWake t) x := by
  rw [taskWake]
  split
  · exact .of_eq rfl
  · by_cases hx : x = t
    · rw [hx]
      exact .of_state (s := .ready) (by rw [setTask_self]; rfl) (by decide)
    · exact .of_eq (setTask_of_ne _ hx)

theorem stillWaits_wakeWhere (k : Kernel) (P : Task → Prop) [DecidablePred P] (x : ℕ) :
    StillWaits k (k.wakeWhere P) x := by
  by_cases hx : x ∈ k.taskList ∧ P (k.tasks x)
  · exact .of_state (s := .ready) (by simp only [wakeWhere, if_pos hx]; rfl) (by decide)
  · exact .of_eq (by simp only [wakeWhere, if_neg hx])

theorem stillWaits_exited {code : ℤ} (he : Exited k k' code) (x : ℕ) : StillWaits k k' x := by
  by_cases hxc : x = k.current
  · have hme := he.me
    rw [← hxc] at hme
    by_cases hun : Unparented k.me
    · exact .of_state (s := .terminated) (by rw [hme]; exact if_pos hun) (by decide)
    · exact .of_state (s := .zombie) (by rw [hme]; exact if_neg hun) (by decide)
  by_cases hxi : x = idle
  · intro hw
    rw [hxi, he.idle] at hw ⊢
    exact ⟨hw, rfl⟩
  -- an orphan waits as it did, and a parent that waits for a child is woken
  have horphan : ∀ t : Task, t.orphaned.state = .waiting → t.state = .waiting := by
    intro t hw
    simp only [Task.orphaned] at hw
    split at hw
    · cases hw
    · exact hw
  have hbase : ∀ t : Task, t = (if x ∈ k.me.children then (k.tasks x).orphaned else k.tasks x) →
      t.state = .waiting → (k.tasks x).state = .waiting ∧ t.waitKind = (k.tasks x).waitKind := by
    intro t ht hw
    rw [ht] at hw ⊢
    split at hw
    · rename_i hx
      rw [if_pos hx]
      exact ⟨horphan _ hw, rfl⟩
    · rename_i hx
      rw [if_neg hx]
      exact ⟨hw, rfl⟩
  intro hw
  by_cases hp : k.me.parent = some x
  · have hwaits := hbase _ rfl
    rw [he.parent x hxc hxi hp] at hw ⊢
    generalize (if x ∈ k.me.children then (k.tasks x).orphaned else k.tasks x) = t at hwaits hw ⊢
    rw [Task.childExited] at hw ⊢
    split at hw
    · cases hw
    · rename_i hnot
      rw [if_neg hnot]
      exact hwaits hw
  · rw [he.others x hxc hxi hp] at hw ⊢
    exact hbase _ rfl hw

/-- Nobody that is a zombie afterwards was not one before. -/
theorem SameTree.zombie (h : SameTree k k') (hz : (k'.tasks x).state = .zombie) : (k.tasks x).state = .zombie := by
  have hsame := h.dead x (by rw [hz]; decide)
  exact hsame.symm.trans hz

theorem stillWaits_scheduler (hcore : Core k) (x : ℕ) : StillWaits k k.scheduler x := by
  have hreaped : ∀ {kr}, Reaped k kr k.taskList → (kr.tasks x).state = (k.tasks x).state ∧
      (kr.tasks x).waitKind = (k.tasks x).waitKind := by
    intro kr hr
    rw [hr.tasks]
    exact ⟨rfl, rfl⟩
  obtain ⟨kr, hr, hcr, ⟨k', hsch, ht, -⟩ | ⟨n, k', hsch, hs, -, -, -⟩⟩ := schedule_cases hcore
  · intro hw
    rw [Kernel.scheduler, hsch] at hw ⊢
    obtain ⟨ticks, hx⟩ := ht.tasks x
    rw [hx] at hw ⊢
    rw [← (hreaped hr).1, ← (hreaped hr).2]
    exact ⟨hw, rfl⟩
  · intro hw
    rw [Kernel.scheduler, hsch] at hw ⊢
    rw [← (hreaped hr).1, ← (hreaped hr).2]
    refine ⟨?_, hs.waitKind x⟩
    by_cases hxn : x = n
    · rw [hxn, hs.next] at hw
      cases hw
    · by_cases hxc : x = kr.current
      · rw [hxc, hs.cur] at hw
        split at hw
        · cases hw
        · rw [hxc]
          exact hw
      · rw [← hs.others x hxn hxc]
        exact hw

/-- **A task that waits after a step** waited before, for the same thing, or is the current one and has blocked. -/
theorem waits_of_exec (hcore : Core k) (htree : Tree k) (hstep : k.Step a k')
    (hw : (k'.tasks x).state = .waiting) :
    ((k.tasks x).state = .waiting ∧ (k'.tasks x).waitKind = (k.tasks x).waitKind) ∨
    (x = k.current ∧ x ≠ idle ∧ (a = .block (k'.tasks x).waitKind ∨ ∃ ms, a = .sleep ms ∧
      (k'.tasks x).waitKind = .sleep)) := by
  cases a with
  | entry frame =>
    obtain rfl := Option.some.inj hstep
    exact .inl ⟨hw, rfl⟩
  | taskCreate entryPoint isUser onHeap space =>
    obtain ⟨-, rfl⟩ := of_guard hstep
    by_cases hx : x = k.nextTask
    · rw [hx] at hw
      simp only [Kernel.taskCreate, Function.update_self] at hw
      cases hw
    · rw [taskCreate_of_ne hx] at hw ⊢
      exact .inl ⟨hw, rfl⟩
  | taskSetReady t =>
    obtain ⟨-, rfl⟩ := of_guard hstep
    exact .inl (stillWaits_taskSetReady k t x hw)
  | spawnJoin t rip rsp =>
    obtain ⟨⟨hrun, -, ht, hnew⟩, rfl⟩ := of_guard hstep
    have htc := ne_current_of_new hrun hnew
    rw [spawnJoin_tasks htc hnew] at hw ⊢
    by_cases hxt : x = t
    · rw [if_pos hxt] at hw
      cases hw
    · rw [if_neg hxt] at hw ⊢
      by_cases hxc : x = k.current
      · rw [if_pos hxc] at hw ⊢
        rw [hxc]
        exact .inl ⟨hw, rfl⟩
      · rw [if_neg hxc] at hw ⊢
        exact .inl ⟨hw, rfl⟩
  | spawnFail t =>
    obtain ⟨-, rfl⟩ := of_guard hstep
    rw [Kernel.spawnFail] at hw ⊢
    by_cases hxt : x = t
    · rw [hxt, setTask_self] at hw
      cases hw
    · rw [setTask_of_ne _ hxt] at hw ⊢
      exact .inl ⟨hw, rfl⟩
  | exit code =>
    obtain ⟨-, rfl⟩ := of_guard hstep
    by_cases hcur : k.current = idle
    · rw [exitWith_idle hcur] at hw ⊢
      by_cases hxi : x = idle
      · rw [hxi, setTask_self] at hw
        exact absurd (hcore.idleState.symm.trans hw) (by decide)
      · rw [setTask_of_ne _ hxi] at hw ⊢
        exact .inl ⟨hw, rfl⟩
    · exact .inl (stillWaits_exited (htree.exited_exitWith hcore hcur code) x hw)
  | waitpid pid =>
    obtain ⟨⟨hrun, -⟩, rfl⟩ := of_guard hstep
    rcases taskWaitpid_cases k pid with ⟨hans, -⟩ | ⟨z, hz, -, hzombie, hans⟩ | ⟨hans, -⟩
    · rw [hans] at hw ⊢
      exact .inl ⟨hw, rfl⟩
    · rw [hans] at hw ⊢
      have hzc := (htree.not_own_child hcore hz).1
      rw [collect_tasks hzc] at hw ⊢
      by_cases hxz : x = z
      · rw [if_pos hxz] at hw
        cases hw
      · rw [if_neg hxz] at hw ⊢
        by_cases hxc : x = k.current
        · rw [if_pos hxc] at hw ⊢
          rw [hxc]
          exact .inl ⟨hw, rfl⟩
        · rw [if_neg hxc] at hw ⊢
          exact .inl ⟨hw, rfl⟩
    · rw [hans] at hw ⊢
      exact .inl ⟨hw, rfl⟩
  | block waitKind =>
    obtain ⟨-, rfl⟩ := of_guard hstep
    rw [taskBlock] at hw ⊢
    split at hw
    · rename_i hcur
      rw [if_pos hcur]
      exact .inl ⟨hw, rfl⟩
    · rename_i hcur
      rw [if_neg hcur]
      by_cases hxc : x = k.current
      · rw [hxc, setTask_self]
        exact .inr ⟨rfl, hcur, .inl rfl⟩
      · rw [setTask_of_ne _ hxc] at hw ⊢
        exact .inl ⟨hw, rfl⟩
  | sleep ms =>
    obtain ⟨⟨-, huser⟩, rfl⟩ := of_guard hstep
    rw [taskSleep] at hw ⊢
    by_cases hxc : x = k.current
    · have hcur : k.current ≠ idle := by
        intro hcur
        rw [me, hcur, hcore.idleUser] at huser
        cases huser
      rw [hxc, setTask_self]
      exact .inr ⟨rfl, hcur, .inr ⟨ms, rfl, rfl⟩⟩
    · rw [setTask_of_ne _ hxc] at hw ⊢
      exact .inl ⟨hw, rfl⟩
  | wake t =>
    obtain ⟨-, rfl⟩ := of_guard hstep
    exact .inl (stillWaits_taskWake k t x hw)
  | wakeAll waitKind =>
    obtain rfl := Option.some.inj hstep
    rw [taskWakeAll_eq] at hw ⊢
    exact .inl (stillWaits_wakeWhere k _ x hw)
  | tick =>
    obtain rfl := Option.some.inj hstep
    rw [taskTick_eq] at hw ⊢
    exact .inl (stillWaits_wakeWhere { k with pitTicks := _ } _ x hw)
  | scheduler =>
    obtain rfl := Option.some.inj hstep
    exact .inl (stillWaits_scheduler hcore x hw)

theorem SameTree.pid (h : SameTree k k') (x : ℕ) : (k'.tasks x).pid = (k.tasks x).pid :=
  (Task.links_inj (h.links x)).1

theorem exited_pid {code : ℤ} (he : Exited k k' code) (x : ℕ) : (k'.tasks x).pid = (k.tasks x).pid := by
  by_cases hxc : x = k.current
  · rw [hxc, he.me]
    rfl
  by_cases hxi : x = idle
  · rw [hxi, he.idle]
  have hbase : (if x ∈ k.me.children then (k.tasks x).orphaned else k.tasks x).pid = (k.tasks x).pid := by
    split <;> rfl
  by_cases hp : k.me.parent = some x
  · rw [he.parent x hxc hxi hp, Task.childExited_pid, hbase]
  · rw [he.others x hxc hxi hp, hbase]

theorem mem_of_scheduler (hcore : Core k) (hx : x ∈ k.scheduler.taskList) : x ∈ k.taskList := by
  obtain ⟨kr, hr, -, ⟨k', hsch, ht, -⟩ | ⟨n, k', hsch, hs, -⟩⟩ := schedule_cases hcore
  · rw [Kernel.scheduler, hsch, ht.taskList] at hx
    exact (hr.mem.mp hx).1
  · rw [Kernel.scheduler, hsch, hs.taskList] at hx
    exact (hr.mem.mp hx).1

/-- The reaper and the choice of a task: lists of children shrink, and nothing else changes that the tree holds. -/
theorem scheduler_links (hcore : Core k) (x : ℕ) :
    (∀ c ∈ (k.scheduler.tasks x).children, c ∈ (k.tasks x).children) ∧
      (k.scheduler.tasks x).pid = (k.tasks x).pid ∧
      ((k.scheduler.tasks x).state = .zombie → (k.tasks x).state = .zombie) := by
  obtain ⟨kr, k', hr, hsch, hsame⟩ : ∃ kr k', Reaped k kr k.taskList ∧ k.scheduler = k' ∧ SameTree kr k' := by
    obtain ⟨kr, hr, hcr, ⟨k', hsch, ht, -⟩ | ⟨n, k', hsch, hs, -, -, hwhy⟩⟩ := schedule_cases hcore
    · exact ⟨kr, k', hr, by rw [Kernel.scheduler, hsch], ht.calm.sameTree⟩
    · exact ⟨kr, k', hr, by rw [Kernel.scheduler, hsch], hs.sameTree (hcr.chosen_alive hwhy)⟩
  rw [hsch]
  refine ⟨fun c hc => ?_, ?_, fun hz => ?_⟩
  · rw [hsame.children, hr.tasks, Task.keepChildren] at hc
    exact List.mem_of_mem_filter hc
  · rw [hsame.pid, hr.tasks]
    rfl
  · rw [← hr.state]
    exact hsame.zombie hz

/-- **A zombie after a step** was one before, or is the current task and has exited. -/
theorem zombie_of_exec (hcore : Core k) (htree : Tree k) (hstep : k.Step a k')
    (hz : (k'.tasks x).state = .zombie) :
    (k.tasks x).state = .zombie ∨ (x = k.current ∧ x ≠ idle ∧ ∃ code, a = .exit code) := by
  cases a with
  | taskCreate entryPoint isUser onHeap space =>
    obtain ⟨-, rfl⟩ := of_guard hstep
    by_cases hx : x = k.nextTask
    · rw [hx] at hz
      simp only [Kernel.taskCreate, Function.update_self] at hz
      cases hz
    · rw [taskCreate_of_ne hx] at hz
      exact .inl hz
  | spawnJoin t rip rsp =>
    obtain ⟨⟨hrun, -, ht, hnew⟩, rfl⟩ := of_guard hstep
    have htc := ne_current_of_new hrun hnew
    rw [(spawnJoin_state htc hnew rip rsp x).1] at hz
    split at hz
    · cases hz
    · exact .inl hz
  | spawnFail t =>
    obtain ⟨-, rfl⟩ := of_guard hstep
    rw [Kernel.spawnFail] at hz
    by_cases hxt : x = t
    · rw [hxt, setTask_self] at hz
      cases hz
    · rw [setTask_of_ne _ hxt] at hz
      exact .inl hz
  | exit code =>
    obtain ⟨-, rfl⟩ := of_guard hstep
    by_cases hcur : k.current = idle
    · rw [exitWith_idle hcur] at hz
      by_cases hxi : x = idle
      · rw [hxi, setTask_self] at hz
        exact absurd (hcore.idleState.symm.trans hz) (by decide)
      · rw [setTask_of_ne _ hxi] at hz
        exact .inl hz
    · by_cases hxc : x = k.current
      · exact .inr ⟨hxc, by rw [hxc]; exact hcur, code, rfl⟩
      · exact .inl ((Recorded.exited_other (htree.exited_exitWith hcore hcur code) hxc).2.1 hz)
  | waitpid pid =>
    obtain ⟨⟨hrun, -⟩, rfl⟩ := of_guard hstep
    rcases taskWaitpid_cases k pid with ⟨hans, -⟩ | ⟨z, hzc, -, -, hans⟩ | ⟨hans, -⟩
    · rw [hans] at hz
      exact .inl hz
    · rw [hans, (collect_state (htree.not_own_child hcore hzc).1 x).1] at hz
      split at hz
      · cases hz
      · exact .inl hz
    · rw [hans] at hz
      exact .inl hz
  | scheduler =>
    obtain rfl := Option.some.inj hstep
    exact .inl ((scheduler_links hcore x).2.2 hz)
  | entry | taskSetReady | block | sleep | wake | wakeAll | tick =>
    exact .inl ((calm_of_exec hcore.idleUser hstep trivial).sameTree.zombie hz)

/-- **A child after a step** was one before, with the same pid, or was just spawned; `idle` apart. -/
theorem child_of_exec (hcore : Core k) (htree : Tree k) (hstep : k.Step a k') (hp : p ∈ k'.taskList)
    (hpi : p ≠ idle) (hc : c ∈ (k'.tasks p).children) :
    (p ∈ k.taskList ∧ c ∈ (k.tasks p).children ∧ (k'.tasks c).pid = (k.tasks c).pid) ∨
      (k'.tasks c).state = .ready := by
  cases a with
  | taskCreate entryPoint isUser onHeap space =>
    obtain ⟨-, rfl⟩ := of_guard hstep
    by_cases hpn : p = k.nextTask
    · rw [hpn] at hc
      simp only [Kernel.taskCreate, Function.update_self] at hc
      cases hc
    · have hpl : p ∈ k.taskList := (List.mem_cons.mp hp).resolve_left hpn
      rw [taskCreate_of_ne hpn] at hc
      refine .inl ⟨hpl, hc, ?_⟩
      rw [taskCreate_of_ne]
      intro hcn
      exact hcore.nextTask_not_mem (hcn ▸ (htree.child p hpl c hc).1)
  | spawnJoin t rip rsp =>
    obtain ⟨⟨hrun, -, ht, hnew⟩, rfl⟩ := of_guard hstep
    have htc := ne_current_of_new hrun hnew
    rw [(spawnJoin_rest k t rip rsp).taskList] at hp
    by_cases hct : c = t
    · right
      rw [(spawnJoin_state htc hnew rip rsp c).1, if_pos hct]
    · left
      rw [spawnJoin_children htc hnew] at hc
      refine ⟨hp, ?_, ?_⟩
      · split at hc
        · rename_i hpc
          rw [hpc]
          rcases List.mem_append.mp hc with hc | hc
          · exact hc
          · exact absurd (List.mem_singleton.mp hc) hct
        · exact hc
      · rw [spawnJoin_tasks htc hnew, if_neg hct]
        split
        · rename_i hcc
          rw [hcc]
          rfl
        · rfl
  | spawnFail t =>
    obtain ⟨-, rfl⟩ := of_guard hstep
    have hlinks : ∀ x, ((k.spawnFail t).2.tasks x).links = (k.tasks x).links := by
      intro x
      rw [Kernel.spawnFail]
      by_cases hxt : x = t
      · rw [hxt, setTask_self]
        rfl
      · rw [setTask_of_ne _ hxt]
    rw [(Task.links_inj (hlinks p)).2.2.2.2.2.2.1] at hc
    exact .inl ⟨hp, hc, (Task.links_inj (hlinks c)).1⟩
  | exit code =>
    obtain ⟨-, rfl⟩ := of_guard hstep
    left
    by_cases hcur : k.current = idle
    · rw [exitWith_idle hcur] at hp hc ⊢
      rw [setTask_of_ne _ hpi] at hc
      refine ⟨hp, hc, ?_⟩
      by_cases hci : c = idle
      · rw [hci, setTask_self]
      · rw [setTask_of_ne _ hci]
    · have he := htree.exited_exitWith hcore hcur code
      rw [he.rest.taskList] at hp
      rw [(he.links htree hcore p).2, if_neg hpi] at hc
      split at hc
      · cases hc
      · exact ⟨hp, hc, exited_pid he c⟩
  | waitpid pid =>
    obtain ⟨⟨hrun, -⟩, rfl⟩ := of_guard hstep
    left
    rcases taskWaitpid_cases k pid with ⟨hans, -⟩ | ⟨z, hz, -, -, hans⟩ | ⟨hans, -⟩
    · rw [hans] at hp hc ⊢
      exact ⟨hp, hc, rfl⟩
    · have hzc := (htree.not_own_child hcore hz).1
      rw [hans] at hp hc ⊢
      rw [(collect_rest k z).taskList] at hp
      rw [collect_children hzc] at hc
      refine ⟨hp, ?_, ?_⟩
      · split at hc
        · rename_i hpc
          rw [hpc]
          exact (mem_listDel.mp hc).1
        · exact hc
      · rw [collect_tasks hzc]
        split
        · rename_i hcz
          rw [hcz]
        · split
          · rename_i hcc
            rw [hcc]
            rfl
          · rfl
    · rw [hans] at hp hc ⊢
      exact ⟨hp, hc, rfl⟩
  | scheduler =>
    obtain rfl := Option.some.inj hstep
    refine .inl ⟨?_, (scheduler_links hcore p).1 c hc, (scheduler_links hcore c).2.1⟩
    exact mem_of_scheduler hcore hp
  | entry | taskSetReady | block | sleep | wake | wakeAll | tick =>
    have hsame := (calm_of_exec hcore.idleUser hstep trivial).sameTree
    rw [hsame.taskList] at hp
    rw [hsame.children] at hc
    exact .inl ⟨hp, hc, hsame.pid c⟩

/-- A task on the list after a step was on it before, or is new. -/
theorem mem_of_exec (hcore : Core k) (hstep : k.Step a k') (hx : x ∈ k'.taskList)
    (hnew : (k'.tasks x).state ≠ .new) : x ∈ k.taskList := by
  cases a with
  | taskCreate entryPoint isUser onHeap space =>
    obtain ⟨-, rfl⟩ := of_guard hstep
    rcases List.mem_cons.mp hx with rfl | hx
    · simp only [Kernel.taskCreate, Function.update_self] at hnew
      exact absurd rfl hnew
    · exact hx
  | scheduler =>
    obtain rfl := Option.some.inj hstep
    exact mem_of_scheduler hcore hx
  | _ =>
    rw [(tame_of_exec hcore hstep (by simp) (by simp)).taskList] at hx
    exact hx

end Kernel

end LizardOs.Sched
