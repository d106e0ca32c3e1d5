import LizardOs.Sched.System

/-!
# The scheduler

What the reaper frees, and which task `scheduler` switches to.  From any reachable state the task it leaves in
charge is in the list and runs, no other task but `idle` runs, and only a ready task is ever switched to, or
`idle` when there is none.
-/

namespace LizardOs.Sched

open LizardOs.Lib

/-- The general-purpose registers and the interrupt frame: a trap frame without its vector and error code. -/
def CpuState.context (r : CpuState) : CpuState := { r with vec := 0, errcode := 0 }

/-- A task with only some of its children. -/
def Task.keepChildren (t : Task) (P : ℕ → Bool) : Task := { t with children := t.children.filter P }

theorem Task.keepChildren_eq_self {t : Task} {P : ℕ → Bool} (h : ∀ c, P c = true) : t.keepChildren P = t := by
  have hchildren : t.children.filter P = t.children := List.filter_eq_self.mpr fun c _ => h c
  rw [Task.keepChildren, hchildren]

theorem Task.keepChildren_keepChildren (t : Task) (P Q : ℕ → Bool) :
    (t.keepChildren P).keepChildren Q = t.keepChildren fun c => P c && Q c := by
  simp only [Task.keepChildren, List.filter_filter]
  congr 2
  funext c
  exact Bool.and_comm _ _

namespace Kernel

variable {k k' : Kernel} {t x c n : ℕ}

/-! ### The reaper -/

/-- The reaper takes the task. -/
def Doomed (k : Kernel) (t : ℕ) : Prop :=
  t ≠ idle ∧ t ≠ k.current ∧ (k.tasks t).state = .terminated

instance (k : Kernel) (t : ℕ) : Decidable (k.Doomed t) := inferInstanceAs (Decidable (_ ∧ _))

theorem reapTask_of_doomed (h : k.Doomed t) :
    k.reapTask t = { k with
      taskList := listDel t k.taskList
      tasks := if (k.tasks t).siblingLinked then
          fun p => { k.tasks p with children := listDel t (k.tasks p).children }
        else k.tasks
      freed := t :: k.freed } := by
  obtain ⟨h1, h2, h3⟩ := h
  rw [reapTask, if_neg (by simp [h1, h2, h3])]

theorem reapTask_of_not_doomed (h : ¬k.Doomed t) : k.reapTask t = k := by
  rw [reapTask, if_pos]
  by_contra hne
  rw [not_or, not_or, not_not] at hne
  exact h hne

/-- What the reaper has done after it has looked at the tasks of `l`. -/
structure Reaped (k k' : Kernel) (l : List ℕ) : Prop where
  taskList : k'.taskList = k.taskList.filter fun t => !decide (t ∈ l ∧ k.Doomed t)
  tasks : ∀ p, k'.tasks p = (k.tasks p).keepChildren fun c =>
    !decide (c ∈ l ∧ k.Doomed c ∧ (k.tasks c).siblingLinked = true)
  freed : k'.freed = (l.filter fun t => decide (k.Doomed t)).reverse ++ k.freed
  current : k'.current = k.current
  nextTask : k'.nextTask = k.nextTask
  enabled : k'.schedulerEnabled = k.schedulerEnabled
  frame : k'.frame = k.frame

theorem reaped_nil (k : Kernel) : Reaped k k [] where
  taskList := by simp
  tasks := fun p => (Task.keepChildren_eq_self (by simp)).symm
  freed := by simp
  current := rfl
  nextTask := rfl
  enabled := rfl
  frame := rfl

theorem reaped_one (k : Kernel) (t : ℕ) : Reaped k (k.reapTask t) [t] := by
  by_cases hd : k.Doomed t
  · rw [reapTask_of_doomed hd]
    refine ⟨?_, fun p => ?_, by simp [hd], rfl, rfl, rfl, rfl⟩
    · simp only [listDel, List.mem_singleton]
      apply List.filter_congr
      intro x _
      by_cases hx : x = t
      · simp [hx, hd]
      · simp [hx]
    · cases hlinked : (k.tasks t).siblingLinked with
      | true =>
        simp only [if_true, Task.keepChildren, listDel]
        congr 1
        apply List.filter_congr
        intro c _
        by_cases hc : c = t
        · simp [hc, hd, hlinked]
        · simp [hc]
      | false =>
        refine (Task.keepChildren_eq_self fun c => ?_).symm
        by_cases hc : c = t
        · simp [hc, hlinked]
        · simp [hc]
  · rw [reapTask_of_not_doomed hd]
    refine ⟨?_, fun p => ?_, by simp [hd], rfl, rfl, rfl, rfl⟩
    · refine (List.filter_eq_self.mpr fun x _ => ?_).symm
      by_cases hx : x = t
      · simp [hx, hd]
      · simp [hx]
    · refine (Task.keepChildren_eq_self fun c => ?_).symm
      by_cases hc : c = t
      · simp [hc, hd]
      · simp [hc]

theorem Reaped.doomed {l : List ℕ} (h : Reaped k k' l) (x : ℕ) : k'.Doomed x ↔ k.Doomed x := by
  rw [Doomed, Doomed, h.current, h.tasks x]
  exact Iff.rfl

theorem Reaped.linked {l : List ℕ} (h : Reaped k k' l) (x : ℕ) :
    (k'.tasks x).siblingLinked = (k.tasks x).siblingLinked := by
  rw [h.tasks x]
  rfl

theorem Reaped.append {k'' : Kernel} {l m : List ℕ} (h : Reaped k k' l) (h' : Reaped k' k'' m) :
    Reaped k k'' (l ++ m) := by
  refine ⟨?_, fun p => ?_, ?_, ?_, ?_, ?_, ?_⟩
  · rw [h'.taskList, h.taskList, List.filter_filter]
    apply List.filter_congr
    intro x _
    simp only [h.doomed, List.mem_append, ← Bool.not_or, ← Bool.decide_or]
    congr 2
    exact propext ⟨by tauto, by tauto⟩
  · rw [h'.tasks, h.tasks, Task.keepChildren_keepChildren]
    congr 1
    funext c
    simp only [h.doomed, h.linked, List.mem_append, ← Bool.not_or, ← Bool.decide_or]
    congr 2
    exact propext ⟨by tauto, by tauto⟩
  · simp only [h'.freed, h.freed, h.doomed, List.filter_append, List.reverse_append, List.append_assoc]
  · rw [h'.current, h.current]
  · rw [h'.nextTask, h.nextTask]
  · rw [h'.enabled, h.enabled]
  · rw [h'.frame, h.frame]

/-- **`reap_terminated`** frees exactly the dead tasks of the list. -/
theorem reaped_reapTerminated (k : Kernel) : Reaped k k.reapTerminated k.taskList := by
  have hfold : ∀ (l done : List ℕ) (k' : Kernel), Reaped k k' done →
      Reaped k (l.foldl reapTask k') (done ++ l) := by
    intro l
    induction l with
    | nil =>
      intro done k' h
      rw [List.append_nil]
      exact h
    | cons t l ih =>
      intro done k' h
      have hone := ih (done ++ [t]) (k'.reapTask t) (h.append (reaped_one k' t))
      rw [List.append_assoc] at hone
      exact hone
  exact hfold k.taskList [] k (reaped_nil k)

/-! ### Switching to another task -/

/-- The scheduler has switched to task `n`. -/
structure Switched (k k' : Kernel) (n : ℕ) : Prop where
  taskList : k'.taskList = k.taskList
  current : k'.current = n
  nextTask : k'.nextTask = k.nextTask
  freed : k'.freed = k.freed
  enabled : k'.schedulerEnabled = k.schedulerEnabled
  links : ∀ x, (k'.tasks x).links = (k.tasks x).links
  waitKind : ∀ x, (k'.tasks x).waitKind = (k.tasks x).waitKind
  next : (k'.tasks n).state = .running
  cur : (k'.tasks k.current).state =
    if k.me.state = .running ∧ k.current ≠ idle then .ready else k.me.state
  others : ∀ x, x ≠ n → x ≠ k.current → (k'.tasks x).state = (k.tasks x).state
  regs : ∀ x, x ≠ k.current → (k'.tasks x).regs = (k.tasks x).regs
  saved : (k'.tasks k.current).regs.context = k.frame.context
  loaded : k'.frame.context = (k.tasks n).regs.context
  pml4 : (k.tasks n).pml4 ≠ 0 → k'.currentPml4 = (k.tasks n).pml4
  stack : k'.tssRsp0 = (k.tasks n).kernelStack

/-- What `task_switch_to` does to the tasks: it stores the registers of the current one. -/
theorem taskSwitchTo_tasks (k : Kernel) (n : ℕ) :
    (k.taskSwitchTo n).tasks = k.taskSaveContext.tasks := rfl

theorem taskSwitchTo_rest (k : Kernel) (n : ℕ) :
    (k.taskSwitchTo n).taskList = k.taskList ∧ (k.taskSwitchTo n).current = n ∧
      (k.taskSwitchTo n).nextTask = k.nextTask ∧ (k.taskSwitchTo n).freed = k.freed ∧
      (k.taskSwitchTo n).schedulerEnabled = k.schedulerEnabled := ⟨rfl, rfl, rfl, rfl, rfl⟩

/-- The frame and the registers of the machine after a switch. -/
theorem taskSwitchTo_machine (hn : n ≠ k.current) :
    (k.taskSwitchTo n).frame.context = (k.tasks n).regs.context ∧
      ((k.tasks n).pml4 ≠ 0 → (k.taskSwitchTo n).currentPml4 = (k.tasks n).pml4) ∧
      (k.taskSwitchTo n).tssRsp0 = (k.tasks n).kernelStack := by
  have hsave : k.taskSaveContext.tasks n = k.tasks n := setTask_of_ne _ hn
  refine ⟨?_, fun hne => ?_, ?_⟩
  · rw [← hsave]
    rfl
  · rw [← hsave] at hne ⊢
    exact if_pos hne
  · rw [← hsave]
    rfl

theorem switched_dispatch (hn : n ≠ k.current) :
    Switched k (k.dispatch (decide (k.me.state = .running)) n) n := by
  set k₁ := if decide (k.me.state = .running) = true ∧ k.current ≠ idle then
      k.setTask k.current fun t => { t with state := .ready } else k with hk₁
  set k₂ := k₁.setTask n fun t => { t with state := .running, ticksRemaining := TASK_TIMESLICE } with hk₂
  have hfields : k₁.taskList = k.taskList ∧ k₁.current = k.current ∧ k₁.nextTask = k.nextTask ∧
      k₁.freed = k.freed ∧ k₁.schedulerEnabled = k.schedulerEnabled ∧ k₁.frame = k.frame := by
    rw [hk₁]
    split <;> exact ⟨rfl, rfl, rfl, rfl, rfl, rfl⟩
  obtain ⟨hlist, hcur, hnext, hfreed, hen, hframe⟩ := hfields
  have hcur₁ : k₁.tasks k.current = { k.me with
      state := if k.me.state = .running ∧ k.current ≠ idle then .ready else k.me.state } := by
    rw [hk₁]
    simp only [decide_eq_true_eq]
    split
    · exact setTask_self ..
    · rfl
  have hother₁ : ∀ x, x ≠ k.current → k₁.tasks x = k.tasks x := by
    intro x hx
    rw [hk₁]
    split
    · exact setTask_of_ne _ hx
    · rfl
  have hdispatch : k.dispatch (decide (k.me.state = .running)) n = k₂.taskSwitchTo n := by
    simp only [dispatch, ← hk₁, ← hk₂, if_pos hn]
  have hcur₂ : k₂.current = k.current := hcur
  have hn₂ : k₂.tasks n = { k.tasks n with state := .running, ticksRemaining := TASK_TIMESLICE } := by
    rw [hk₂, setTask_self, hother₁ n hn]
  have htasks : ∀ x, x ≠ k.current → (k₂.taskSwitchTo n).tasks x = k₂.tasks x := by
    intro x hx
    rw [taskSwitchTo_tasks]
    exact setTask_of_ne _ (hcur₂ ▸ hx)
  have htasksCur : (k₂.taskSwitchTo n).tasks k.current =
      { k₁.tasks k.current with regs := ((k₂.taskSwitchTo n).tasks k.current).regs } ∧
      ((k₂.taskSwitchTo n).tasks k.current).regs.context = k.frame.context := by
    have hne : k.current ≠ n := hn.symm
    rw [taskSwitchTo_tasks, taskSaveContext, hcur₂, setTask_self, hk₂, setTask_of_ne _ hne]
    refine ⟨rfl, ?_⟩
    rw [← hframe]
    rfl
  have hother : ∀ x, x ≠ n → x ≠ k.current → (k₂.taskSwitchTo n).tasks x = k.tasks x := by
    intro x hxn hxc
    rw [htasks x hxc, hk₂, setTask_of_ne _ hxn, hother₁ x hxc]
  have hnext' : (k₂.taskSwitchTo n).tasks n =
      { k.tasks n with state := .running, ticksRemaining := TASK_TIMESLICE } := by
    rw [htasks n hn, hn₂]
  obtain ⟨rlist, rcur, rnext, rfreed, ren⟩ := taskSwitchTo_rest k₂ n
  obtain ⟨mframe, mpml4, mstack⟩ := taskSwitchTo_machine (k := k₂) (n := n) (hcur₂ ▸ hn)
  rw [hn₂] at mframe mpml4 mstack
  rw [hdispatch]
  refine ⟨rlist.trans hlist, rcur, rnext.trans hnext, rfreed.trans hfreed, ren.trans hen, fun x => ?_,
    fun x => ?_, by rw [hnext'], ?_, fun x hxn hxc => by rw [hother x hxn hxc], fun x hxc => ?_,
    htasksCur.2, mframe, mpml4, mstack⟩
  · by_cases hxc : x = k.current
    · rw [hxc, htasksCur.1, hcur₁]
      rfl
    · by_cases hxn : x = n
      · rw [hxn, hnext']
        rfl
      · rw [hother x hxn hxc]
  · by_cases hxc : x = k.current
    · rw [hxc, htasksCur.1, hcur₁]
      rfl
    · by_cases hxn : x = n
      · rw [hxn, hnext']
      · rw [hother x hxn hxc]
  · rw [htasksCur.1, hcur₁]
  · by_cases hxn : x = n
    · rw [hxn, hnext']
    · rw [hother x hxn hxc]

theorem nextReadyTask_congr (hlist : k'.taskList = k.taskList) (hcur : k'.current = k.current)
    (hstate : ∀ x, (k'.tasks x).state = (k.tasks x).state) : k'.nextReadyTask = k.nextReadyTask := by
  simp only [nextReadyTask, hlist, hcur, hstate]

/-- A task that `next_ready_task` returns is ready, is not `idle`, and comes behind no other such task. -/
theorem nextReadyTask_some (h : k.nextReadyTask = some n) :
    (k.tasks n).state = .ready ∧ n ≠ idle ∧
      ∃ p q, rotateFrom k.current k.taskList = p ++ n :: q ∧
        ∀ x ∈ p, ¬((k.tasks x).state = .ready ∧ x ≠ idle) := by
  obtain ⟨hn, p, q, hpq, hp⟩ := List.find?_eq_some_iff_append.mp h
  obtain ⟨hready, hidle⟩ := of_decide_eq_true hn
  exact ⟨hready, hidle, p, q, hpq, fun x hx => by simpa [or_iff_not_imp_left] using hp x hx⟩

theorem nextReadyTask_none (h : k.nextReadyTask = none) (hx : x ∈ rotateFrom k.current k.taskList)
    (hne : x ≠ idle) : (k.tasks x).state ≠ .ready := by
  have hfind := List.find?_eq_none.mp h x hx
  intro hready
  exact hfind (decide_eq_true ⟨hready, hne⟩)

/-- Only the quantum of some tasks changed. -/
structure Ticked (k k' : Kernel) : Prop where
  taskList : k'.taskList = k.taskList
  current : k'.current = k.current
  nextTask : k'.nextTask = k.nextTask
  freed : k'.freed = k.freed
  enabled : k'.schedulerEnabled = k.schedulerEnabled
  frame : k'.frame = k.frame
  tasks : ∀ x, ∃ ticks, k'.tasks x = { k.tasks x with ticksRemaining := ticks }

theorem Ticked.refl (k : Kernel) : Ticked k k :=
  ⟨rfl, rfl, rfl, rfl, rfl, rfl, fun _ => ⟨_, rfl⟩⟩

theorem Ticked.setTask (h : Ticked k k') (t : ℕ) (f : Task → ℕ) :
    Ticked k (k'.setTask t fun c => { c with ticksRemaining := f c }) := by
  refine ⟨h.taskList, h.current, h.nextTask, h.freed, h.enabled, h.frame, fun x => ?_⟩
  obtain ⟨ticks, hx⟩ := h.tasks x
  by_cases hxt : x = t
  · subst hxt
    rw [setTask_self, hx]
    exact ⟨_, rfl⟩
  · rw [setTask_of_ne _ hxt, hx]
    exact ⟨_, rfl⟩

theorem Ticked.state (h : Ticked k k') (x : ℕ) : (k'.tasks x).state = (k.tasks x).state := by
  obtain ⟨ticks, hx⟩ := h.tasks x
  rw [hx]

theorem Ticked.me_state (h : Ticked k k') : k'.me.state = k.me.state := by
  rw [me, me, h.current, h.state]

theorem Ticked.calm (h : Ticked k k') : Calm k k' := by
  refine ⟨h.taskList, h.current, h.nextTask, h.freed, h.enabled, fun x => ?_, fun x => ?_, fun x => .inl ?_⟩
  all_goals
    obtain ⟨ticks, hx⟩ := h.tasks x
    rw [hx]
  · rfl
  · exact ⟨rfl, rfl⟩

theorem Ticked.switched {k'' : Kernel} (h : Ticked k k') (hs : Switched k' k'' n) : Switched k k'' n := by
  obtain ⟨nticks, hn⟩ := h.tasks n
  have hcur := h.current
  have hloaded := hs.loaded
  have hpml4 := hs.pml4
  have hstack := hs.stack
  rw [hn] at hloaded hpml4 hstack
  refine ⟨hs.taskList.trans h.taskList, hs.current, hs.nextTask.trans h.nextTask, hs.freed.trans h.freed,
    hs.enabled.trans h.enabled, fun x => (hs.links x).trans (h.calm.links x), fun x => ?_, hs.next, ?_,
    fun x hxn hxc => ?_, fun x hxc => ?_, ?_, hloaded, hpml4, hstack⟩
  · obtain ⟨ticks, hx⟩ := h.tasks x
    rw [hs.waitKind, hx]
  · rw [← hcur, hs.cur, h.me_state, hcur]
  · rw [hs.others x hxn (hcur ▸ hxc), h.state]
  · rw [hs.regs x (hcur ▸ hxc), h.calm.regs]
  · rw [← hcur, hs.saved, h.frame]

/-- The choice, with the kernel in which the tick is spent. -/
theorem pick_eq {k₁ : Kernel} (hk₁ : k₁ = if decide (k.me.state = .running) = true ∧ k.current ≠ idle then
      k.setTask k.current fun t => { t with ticksRemaining := t.ticksRemaining - 1 } else k) :
    k.pick = if decide (k.me.state = .running) = true ∧ k.current ≠ idle ∧ k₁.me.ticksRemaining ≠ 0 then (none, k₁)
      else
        match k₁.nextReadyTask with
        | some next => (some next, k₁.dispatch (decide (k.me.state = .running)) next)
        | none =>
            if decide (k.me.state = .running) = true then
              (none, k₁.setTask k.current fun t => { t with ticksRemaining := TASK_TIMESLICE })
            else (some idle, k₁.dispatch (decide (k.me.state = .running)) idle) := by
  rw [hk₁]
  rfl

/-- **The choice of `scheduler`**: the current task goes on, or the next ready one is switched to, or, when there
is none and the current one cannot go on, `idle`. -/
theorem pick_cases (hcur : k.current ∈ k.taskList) (hnodup : k.taskList.Nodup)
    (hidle : (k.tasks idle).state = .running) :
    (∃ k', k.pick = (none, k') ∧ Ticked k k' ∧ k.me.state = .running) ∨
    ∃ n k', k.pick = (some n, k') ∧ Switched k k' n ∧ n ≠ k.current ∧
      (k.nextReadyTask = some n ∨ (n = idle ∧ k.nextReadyTask = none ∧ k.me.state ≠ .running)) := by
  -- spending a tick changes nothing the choice looks at
  set k₁ := if decide (k.me.state = .running) = true ∧ k.current ≠ idle then
      k.setTask k.current fun t => { t with ticksRemaining := t.ticksRemaining - 1 } else k with hk₁
  have hticked : Ticked k k₁ := by
    rw [hk₁]
    split
    · exact (Ticked.refl k).setTask _ _
    · exact Ticked.refl k
  have hready := nextReadyTask_congr hticked.taskList hticked.current hticked.state
  have hpick := pick_eq hk₁
  have hswitch : ∀ n, n ≠ k.current →
      Switched k (k₁.dispatch (decide (k.me.state = .running)) n) n := by
    intro n hn
    rw [← hticked.me_state]
    exact hticked.switched (switched_dispatch (hticked.current ▸ hn))
  by_cases hquantum : decide (k.me.state = .running) = true ∧ k.current ≠ idle ∧ k₁.me.ticksRemaining ≠ 0
  · rw [if_pos hquantum] at hpick
    exact .inl ⟨k₁, hpick, hticked, of_decide_eq_true hquantum.1⟩
  rw [if_neg hquantum, hready] at hpick
  cases hnext : k.nextReadyTask with
  | some n =>
    rw [hnext] at hpick
    obtain ⟨-, -, p, q, hpq, -⟩ := nextReadyTask_some hnext
    have hmem : n ∈ rotateFrom k.current k.taskList := by
      rw [hpq]
      simp
    have hne := ((mem_rotateFrom hnodup hcur).mp hmem).2
    exact .inr ⟨n, _, hpick, hswitch n hne, hne, .inl rfl⟩
  | none =>
    rw [hnext] at hpick
    by_cases hrun : k.me.state = .running
    · rw [if_pos (decide_eq_true hrun)] at hpick
      exact .inl ⟨_, hpick, hticked.setTask _ _, hrun⟩
    · rw [if_neg (by simpa using hrun)] at hpick
      have hne : idle ≠ k.current := by
        intro hcur'
        rw [me, ← hcur'] at hrun
        exact hrun hidle
      exact .inr ⟨idle, _, hpick, hswitch idle hne, hne, .inr ⟨rfl, rfl, hrun⟩⟩

/-! ### Who runs -/

/-- A step that starts no task, leaves `idle` running, and stops no ready task. -/
structure Tame (k k' : Kernel) : Prop where
  taskList : k'.taskList = k.taskList
  current : k'.current = k.current
  nextTask : k'.nextTask = k.nextTask
  enabled : k'.schedulerEnabled = k.schedulerEnabled
  running : ∀ x, (k'.tasks x).state = .running → (k.tasks x).state = .running
  ready : ∀ x, x ≠ k.current → (k.tasks x).state = .ready → (k'.tasks x).state = .ready
  idleState : (k.tasks idle).state = .running → (k'.tasks idle).state = .running
  isUser : ∀ x, (k'.tasks x).isUser = (k.tasks x).isUser

theorem Tame.refl (k : Kernel) : Tame k k :=
  ⟨rfl, rfl, rfl, rfl, fun _ h => h, fun _ _ h => h, fun h => h, fun _ => rfl⟩

theorem Tame.trans {k'' : Kernel} (h : Tame k k') (h' : Tame k' k'') : Tame k k'' :=
  ⟨h'.taskList.trans h.taskList, h'.current.trans h.current, h'.nextTask.trans h.nextTask,
    h'.enabled.trans h.enabled, fun x hx => h.running x (h'.running x hx),
    fun x hne hx => h'.ready x (h.current ▸ hne) (h.ready x hne hx),
    fun hx => h'.idleState (h.idleState hx), fun x => (h'.isUser x).trans (h.isUser x)⟩

/-- How a tame step may change the state of a task. -/
def TameMove (k : Kernel) (t : ℕ) (after : TaskState) : Prop :=
  after = (k.tasks t).state ∨
  ((k.tasks t).state ≠ .running ∧ (k.tasks t).state ≠ .ready ∧ after ≠ .running) ∨
  (t = k.current ∧ t ≠ idle ∧ after ≠ .running)

theorem tameMove_of_state {st after : TaskState} (h : (k.tasks t).state = st) (h1 : st ≠ .running)
    (h2 : st ≠ .ready) (h3 : after ≠ .running) : k.TameMove t after := by
  rw [TameMove, h]
  exact .inr (.inl ⟨h1, h2, h3⟩)

theorem Tame.of_moves (htaskList : k'.taskList = k.taskList) (hcurrent : k'.current = k.current)
    (hnextTask : k'.nextTask = k.nextTask) (henabled : k'.schedulerEnabled = k.schedulerEnabled)
    (hmoves : ∀ x, k.TameMove x (k'.tasks x).state)
    (huser : ∀ x, (k'.tasks x).isUser = (k.tasks x).isUser) : Tame k k' := by
  refine ⟨htaskList, hcurrent, hnextTask, henabled, fun x hx => ?_, fun x hne hx => ?_, fun hx => ?_, huser⟩
  · rcases hmoves x with h | ⟨-, -, h⟩ | ⟨-, -, h⟩
    · rw [← h]
      exact hx
    · exact absurd hx h
    · exact absurd hx h
  · rcases hmoves x with h | ⟨-, h, -⟩ | ⟨h, -⟩
    · rw [h]
      exact hx
    · exact absurd hx h
    · exact absurd h hne
  · rcases hmoves idle with h | ⟨h, -⟩ | ⟨-, h, -⟩
    · rw [h]
      exact hx
    · exact absurd hx h
    · exact absurd rfl h

theorem Tame.setTask {f : Task → Task} (hmove : k.TameMove t (f (k.tasks t)).state)
    (huser : (f (k.tasks t)).isUser = (k.tasks t).isUser) : Tame k (k.setTask t f) := by
  refine Tame.of_moves rfl rfl rfl rfl (fun x => ?_) fun x => ?_
  · by_cases hxt : x = t
    · rw [hxt, setTask_self]
      exact hmove
    · rw [setTask_of_ne _ hxt]
      exact .inl rfl
  · by_cases hxt : x = t
    · rw [hxt, setTask_self]
      exact huser
    · rw [setTask_of_ne _ hxt]

theorem Calm.tame (h : Calm k k') : Tame k k' := by
  refine Tame.of_moves h.taskList h.current h.nextTask h.enabled (fun x => ?_)
    fun x => (Task.links_inj (h.links x)).2.2.1
  rcases h.moves x with ⟨h1, -⟩ | ⟨h1 | h1, h2⟩ | ⟨h1, h2, -, h3⟩
  · exact .inl h1
  · exact .inr (.inl ⟨by rw [h1]; decide, by rw [h1]; decide, by rw [h2]; decide⟩)
  · exact .inr (.inl ⟨by rw [h1]; decide, by rw [h1]; decide, by rw [h2]; decide⟩)
  · exact .inr (.inr ⟨h1, h2, by rw [h3]; decide⟩)

theorem tame_reparent (me : ℕ) (k : Kernel) (c : ℕ) : Tame k (reparent me k c) := by
  have hzombie : Tame k (if (k.tasks c).state = .zombie then
      k.setTask c fun t => { t with state := .terminated } else k) := by
    split
    · rename_i hz
      have hmove : k.TameMove c .terminated := tameMove_of_state hz (by decide) (by decide) (by decide)
      exact Tame.setTask hmove rfl
    · exact Tame.refl k
  rw [reparent]
  exact hzombie.trans ((Tame.setTask (.inl rfl) rfl).trans
    ((Tame.setTask (.inl rfl) rfl).trans (Tame.setTask (.inl rfl) rfl)))

theorem tame_exitWith (hcur : k.current ≠ idle) (code : ℤ) : Tame k (k.exitWith code) := by
  set k₀ := k.setTask k.current fun t => { t with exitCode := code } with hk₀
  have h₀ : Tame k k₀ := Tame.setTask (.inl rfl) rfl
  have hfold : ∀ (l : List ℕ) (k : Kernel) (me : ℕ), Tame k (l.foldl (reparent me) k) := by
    intro l
    induction l with
    | nil => exact fun k me => Tame.refl k
    | cons c l ih => exact fun k me => (tame_reparent me k c).trans (ih _ me)
  show Tame k k₀.taskExit
  rw [taskExit]
  simp only []
  rw [if_neg (show ¬k₀.current = idle from hcur)]
  set k₁ := (k₀.tasks k₀.current).children.foldl (reparent k₀.current) k₀
  have h₁ : Tame k₀ k₁ := hfold _ _ _
  have hdie : ∀ st : TaskState, st ≠ .running →
      Tame k (k₁.setTask k₀.current fun c => { c with state := st }) := by
    intro st hst
    exact (h₀.trans h₁).trans (Tame.setTask (.inr (.inr ⟨h₁.current.symm, hcur, hst⟩)) rfl)
  split
  · split
    · exact hdie .terminated (by decide)
    · have h₂ := hdie .zombie (by decide)
      split
      · exact h₂.trans (calm_taskWake _ _).tame
      · exact h₂
  · exact hdie .terminated (by decide)

theorem tame_spawnJoin (ht : t ≠ k.current) (hnew : (k.tasks t).state = .new) (rip rsp : ℕ) :
    Tame k (k.spawnJoin t rip rsp).2 := by
  have hrest := spawnJoin_rest k t rip rsp
  have htasks := spawnJoin_tasks ht hnew rip rsp
  refine Tame.of_moves hrest.taskList hrest.current hrest.nextTask hrest.enabled (fun x => ?_) fun x => ?_
  · rw [htasks]
    by_cases hxt : x = t
    · have hmove : k.TameMove t .ready := tameMove_of_state hnew (by decide) (by decide) (by decide)
      rw [if_pos hxt, hxt]
      exact hmove
    · rw [if_neg hxt]
      by_cases hxc : x = k.current
      · rw [if_pos hxc, hxc]
        exact .inl rfl
      · rw [if_neg hxc]
        exact .inl rfl
  · rw [htasks]
    by_cases hxt : x = t
    · rw [if_pos hxt, hxt]
      rfl
    · rw [if_neg hxt]
      by_cases hxc : x = k.current
      · rw [if_pos hxc, hxc]
        rfl
      · rw [if_neg hxc]

theorem tame_spawnFail (hnew : (k.tasks t).state = .new) : Tame k (k.spawnFail t).2 := by
  have hmove : k.TameMove t .terminated := tameMove_of_state hnew (by decide) (by decide) (by decide)
  show Tame k (k.setTask t fun c => { c with state := .terminated })
  exact Tame.setTask hmove rfl

theorem tame_collect {z : ℕ} (hz : (k.tasks z).state = .zombie) : Tame k (k.collect z) := by
  set k₁ := k.setTask k.current fun t => { t with children := listDel z t.children }
  have h₁ : Tame k k₁ := Tame.setTask (.inl rfl) rfl
  have hz₁ : (k₁.tasks z).state = .zombie := by
    by_cases hzc : z = k.current
    · rw [hzc, setTask_self, ← hzc]
      exact hz
    · rw [setTask_of_ne _ hzc]
      exact hz
  have hmove : k₁.TameMove z .terminated := tameMove_of_state hz₁ (by decide) (by decide) (by decide)
  rw [collect]
  exact h₁.trans (Tame.setTask hmove rfl)

theorem tame_taskWaitpid (k : Kernel) (pid : ℤ) : Tame k (k.taskWaitpid pid).2 := by
  rcases taskWaitpid_cases k pid with ⟨h, -⟩ | ⟨z, -, -, hz, h⟩ | ⟨h, -⟩
  · rw [h]
    exact Tame.refl k
  · rw [h]
    exact tame_collect hz
  · rw [h]
    exact Tame.refl k

/-- What holds between steps: the list holds `idle` and the current task, and only these may run. -/
structure Core (k : Kernel) : Prop where
  idle_mem : idle ∈ k.taskList
  current_mem : k.current ∈ k.taskList
  nodup : k.taskList.Nodup
  fresh : ∀ t ∈ k.taskList, t < k.nextTask
  idleState : (k.tasks idle).state = .running
  idleUser : (k.tasks idle).isUser = false
  running : ∀ t ∈ k.taskList, (k.tasks t).state = .running → t = k.current ∨ t = idle
  enabled : k.schedulerEnabled = true

theorem Core.tame (h : Core k) (ht : Tame k k') : Core k' where
  idle_mem := ht.taskList ▸ h.idle_mem
  current_mem := by
    rw [ht.taskList, ht.current]
    exact h.current_mem
  nodup := ht.taskList ▸ h.nodup
  fresh := by
    rw [ht.taskList, ht.nextTask]
    exact h.fresh
  idleState := ht.idleState h.idleState
  idleUser := (ht.isUser idle).trans h.idleUser
  running := by
    intro t hmem hrun
    rw [ht.taskList] at hmem
    rw [ht.current]
    exact h.running t hmem (ht.running t hrun)
  enabled := ht.enabled.trans h.enabled

theorem Core.nextTask_not_mem (h : Core k) : k.nextTask ∉ k.taskList :=
  fun hmem => Nat.lt_irrefl _ (h.fresh _ hmem)

/-- The tasks that were there before `task_create` stay as they are. -/
theorem taskCreate_of_ne (hx : x ≠ k.nextTask) (entryPoint : ℕ) (isUser onHeap : Bool) (space : AddrSpace) :
    (k.taskCreate entryPoint isUser onHeap space).tasks x = k.tasks x :=
  Function.update_of_ne hx ..

theorem Core.taskCreate (h : Core k) (entryPoint : ℕ) (isUser onHeap : Bool) (space : AddrSpace) :
    Core (k.taskCreate entryPoint isUser onHeap space) := by
  have hne : ∀ x ∈ k.taskList, x ≠ k.nextTask := fun x hx hxn => h.nextTask_not_mem (hxn ▸ hx)
  have hold := fun x hx => taskCreate_of_ne (hne x hx) entryPoint isUser onHeap space
  refine ⟨List.mem_cons_of_mem _ h.idle_mem, List.mem_cons_of_mem _ h.current_mem,
    List.nodup_cons.mpr ⟨h.nextTask_not_mem, h.nodup⟩, fun x hx => ?_, ?_, ?_, fun x hx hrun => ?_, h.enabled⟩
  · rcases List.mem_cons.mp hx with rfl | hx
    · exact Nat.lt_succ_self _
    · exact Nat.lt_succ_of_lt (h.fresh x hx)
  · rw [hold idle h.idle_mem]
    exact h.idleState
  · rw [hold idle h.idle_mem]
    exact h.idleUser
  · rcases List.mem_cons.mp hx with rfl | hx
    · simp only [Kernel.taskCreate, Function.update_self] at hrun
      cases hrun
    · rw [hold x hx] at hrun
      exact h.running x hx hrun

/-- The reaper leaves `idle`, the current task and every task that is not dead. -/
theorem Reaped.mem {l : List ℕ} (h : Reaped k k' l) :
    x ∈ k'.taskList ↔ x ∈ k.taskList ∧ ¬(x ∈ l ∧ k.Doomed x) := by
  rw [h.taskList, List.mem_filter]
  simp [imp_iff_not_or]

theorem Reaped.state {l : List ℕ} (h : Reaped k k' l) (x : ℕ) : (k'.tasks x).state = (k.tasks x).state := by
  rw [h.tasks x]
  rfl

theorem Core.reaped {l : List ℕ} (h : Core k) (hr : Reaped k k' l) : Core k' := by
  have hidle : ¬k.Doomed idle := fun hd => hd.1 rfl
  have hcur : ¬k.Doomed k.current := fun hd => hd.2.1 rfl
  refine ⟨hr.mem.mpr ⟨h.idle_mem, fun hx => hidle hx.2⟩, ?_, ?_, fun x hx => ?_, ?_, ?_, fun x hx hrun => ?_,
    hr.enabled.trans h.enabled⟩
  · rw [hr.current]
    exact hr.mem.mpr ⟨h.current_mem, fun hx => hcur hx.2⟩
  · rw [hr.taskList]
    exact h.nodup.filter _
  · rw [hr.nextTask]
    exact h.fresh x (hr.mem.mp hx).1
  · rw [hr.state]
    exact h.idleState
  · rw [hr.tasks]
    exact h.idleUser
  · rw [hr.state] at hrun
    rw [hr.current]
    exact h.running x (hr.mem.mp hx).1 hrun

theorem Core.switched (h : Core k) (hs : Switched k k' n) (hn : n ∈ k.taskList) : Core k' := by
  refine ⟨hs.taskList ▸ h.idle_mem, ?_, hs.taskList ▸ h.nodup, ?_, ?_, ?_, fun x hx hrun => ?_,
    hs.enabled.trans h.enabled⟩
  · rw [hs.taskList, hs.current]
    exact hn
  · rw [hs.taskList, hs.nextTask]
    exact h.fresh
  · by_cases hni : idle = n
    · rw [hni]
      exact hs.next
    · by_cases hci : idle = k.current
      · rw [hci, hs.cur, if_neg (fun hc => hc.2 hci.symm), me, ← hci]
        exact h.idleState
      · rw [hs.others idle hni hci]
        exact h.idleState
  · rw [(Task.links_inj (hs.links idle)).2.2.1]
    exact h.idleUser
  · rw [hs.taskList] at hx
    rw [hs.current]
    by_cases hxn : x = n
    · exact .inl hxn
    · right
      by_cases hxc : x = k.current
      · -- the task switched away from goes back to the rotation, unless it is idle
        rw [hxc, hs.cur] at hrun
        by_contra hxi
        split at hrun
        · cases hrun
        · rename_i hnot
          exact hnot ⟨hrun, hxc ▸ hxi⟩
      · rw [hs.others x hxn hxc] at hrun
        rcases h.running x hx hrun with hx' | hx'
        · exact absurd hx' hxc
        · exact hx'

/-- **`scheduler`** in a state between steps: the reaper, and then the choice of a task. -/
theorem schedule_cases (h : Core k) :
    ∃ kr, Reaped k kr k.taskList ∧ Core kr ∧
      ((∃ k', k.schedule = (none, k') ∧ Ticked kr k' ∧ kr.me.state = .running) ∨
      ∃ n k', k.schedule = (some n, k') ∧ Switched kr k' n ∧ n ≠ kr.current ∧ n ∈ kr.taskList ∧
        (kr.nextReadyTask = some n ∨ (n = idle ∧ kr.nextReadyTask = none ∧ kr.me.state ≠ .running))) := by
  have hr := reaped_reapTerminated k
  have hcore := h.reaped hr
  have hschedule : k.schedule = k.reapTerminated.pick := by
    rw [schedule, if_neg (by rw [h.enabled]; decide)]
  refine ⟨k.reapTerminated, hr, hcore, ?_⟩
  rw [hschedule]
  rcases pick_cases hcore.current_mem hcore.nodup hcore.idleState with hsame | ⟨n, k', hpick, hs, hne, hwhy⟩
  · exact .inl hsame
  · refine .inr ⟨n, k', hpick, hs, hne, ?_, hwhy⟩
    rcases hwhy with hready | ⟨hidle, -⟩
    · obtain ⟨-, -, p, q, hpq, -⟩ := nextReadyTask_some hready
      have hmem : n ∈ rotateFrom k.reapTerminated.current k.reapTerminated.taskList := by
        rw [hpq]
        simp
      exact ((mem_rotateFrom hcore.nodup hcore.current_mem).mp hmem).1
    · rw [hidle]
      exact hcore.idle_mem

/-- A task that `scheduler` chooses is alive. -/
theorem Core.chosen_alive (h : Core k)
    (hwhy : k.nextReadyTask = some n ∨ (n = idle ∧ k.nextReadyTask = none ∧ k.me.state ≠ .running)) :
    (k.tasks n).state ∉ [TaskState.zombie, .terminated] := by
  rcases hwhy with hready | ⟨hidle, -⟩
  · rw [(nextReadyTask_some hready).1]
    decide
  · rw [hidle, h.idleState]
    decide

/-- A task that `scheduler` chooses is the current one afterwards. -/
theorem current_of_schedule (h : Core k) (hn : k.schedule.1 = some n) : k.scheduler.current = n := by
  obtain ⟨kr, -, -, ⟨k', hsch, -⟩ | ⟨m, k', hsch, hs, -⟩⟩ := schedule_cases h
  · rw [hsch] at hn
    cases hn
  · rw [hsch] at hn
    rw [Kernel.scheduler, hsch, ← Option.some.inj hn]
    exact hs.current

theorem Core.scheduler (h : Core k) : Core k.scheduler := by
  obtain ⟨kr, -, hcore, ⟨k', hsch, ht, -⟩ | ⟨n, k', hsch, hs, -, hn, -⟩⟩ := schedule_cases h
  · rw [Kernel.scheduler, hsch]
    exact hcore.tame ht.calm.tame
  · rw [Kernel.scheduler, hsch]
    exact hcore.switched hs hn

theorem scheduler_pidCounter (k : Kernel) : k.scheduler.pidCounter = k.pidCounter := by
  have hreap : ∀ (l : List ℕ) (k : Kernel), (l.foldl reapTask k).pidCounter = k.pidCounter := by
    intro l
    induction l with
    | nil => exact fun _ => rfl
    | cons t l ih =>
      intro k
      rw [List.foldl_cons, ih, reapTask]
      split <;> rfl
  have hset : ∀ (k : Kernel) (P : Prop) [Decidable P] (t : ℕ) (f : Task → Task),
      (if P then k.setTask t f else k).pidCounter = k.pidCounter := by
    intro k P _ t f
    split <;> rfl
  have hdispatch : ∀ (k : Kernel) (r : Bool) (n : ℕ), (k.dispatch r n).pidCounter = k.pidCounter := by
    intro k r n
    rw [dispatch]
    split
    · exact hset ..
    · exact hset ..
  have hpick : ∀ k : Kernel, k.pick.2.pidCounter = k.pidCounter := by
    intro k
    have hticked := hset k (decide (k.me.state = .running) = true ∧ k.current ≠ idle) k.current
      fun t => { t with ticksRemaining := t.ticksRemaining - 1 }
    rw [← hticked, pick]
    generalize (if decide (k.me.state = .running) = true ∧ k.current ≠ idle then
      k.setTask k.current fun t => { t with ticksRemaining := t.ticksRemaining - 1 } else k) = k₁
    split
    · rfl
    · split
      · exact hdispatch ..
      · split
        · rfl
        · exact hdispatch ..
  rw [Kernel.scheduler, schedule]
  split
  · rfl
  · exact (hpick _).trans (hreap ..)

/-- Every step but the creation of a task and the scheduler is tame. -/
theorem tame_of_exec {a : Action} (h : Core k) (hstep : k.Step a k')
    (hcreate : ∀ e u o sp, a ≠ .taskCreate e u o sp) (hscheduler : a ≠ .scheduler) : Tame k k' := by
  cases a with
  | taskCreate e u o sp => exact absurd rfl (hcreate e u o sp)
  | scheduler => exact absurd rfl hscheduler
  | spawnJoin t rip rsp =>
    obtain ⟨⟨hrun, -, -, hnew⟩, rfl⟩ := of_guard hstep
    have ht : t ≠ k.current := by
      intro hcur
      rw [hcur] at hnew
      exact absurd (hrun.symm.trans hnew) (by decide)
    exact tame_spawnJoin ht hnew rip rsp
  | spawnFail t =>
    obtain ⟨⟨-, -, hnew⟩, rfl⟩ := of_guard hstep
    exact tame_spawnFail hnew
  | exit code =>
    obtain ⟨-, rfl⟩ := of_guard hstep
    by_cases hcur : k.current = idle
    · rw [exitWith, taskExit]
      simp only []
      rw [if_pos (show (k.setTask k.current fun t => { t with exitCode := code }).current = idle from hcur)]
      exact Tame.setTask (.inl rfl) rfl
    · exact tame_exitWith hcur code
  | waitpid pid =>
    obtain ⟨-, rfl⟩ := of_guard hstep
    exact tame_taskWaitpid k pid
  | entry | taskSetReady | block | sleep | wake | wakeAll | tick =>
    exact (calm_of_exec h.idleUser hstep trivial).tame

theorem Core.exec {a : Action} (h : Core k) (hstep : k.Step a k') : Core k' := by
  cases a with
  | taskCreate entryPoint isUser onHeap space =>
    obtain ⟨-, rfl⟩ := of_guard hstep
    exact h.taskCreate entryPoint isUser onHeap space
  | scheduler =>
    obtain rfl := Option.some.inj hstep
    exact h.scheduler
  | _ => exact h.tame (tame_of_exec h hstep (by simp) (by simp))

end Kernel

theorem BootTasks.kmain_taskList (b : BootTasks) : b.kmain.taskList = [1, idle] := rfl

theorem core_kmain (b : BootTasks) : b.kmain.Core where
  idle_mem := by
    rw [b.kmain_taskList]
    decide
  current_mem := by
    rw [b.kmain_taskList]
    exact List.mem_cons_of_mem _ List.mem_cons_self
  nodup := by
    rw [b.kmain_taskList]
    decide
  fresh := by
    intro t ht
    rw [b.kmain_taskList] at ht
    rcases List.mem_cons.mp ht with rfl | ht
    · exact Nat.lt_succ_self 1
    · rw [List.mem_singleton.mp ht]
      exact Nat.zero_lt_two
  idleState := rfl
  idleUser := rfl
  running := by
    intro t ht hrun
    rw [b.kmain_taskList] at ht
    rcases List.mem_cons.mp ht with rfl | ht
    · cases hrun
    · exact .inr (List.mem_singleton.mp ht)
  enabled := rfl

/-- Every state between steps is well formed. -/
theorem core_of_reaches (b : BootTasks) {k : Kernel} (h : Reaches Kernel.Step b.kmain k) : k.Core :=
  h.invariant (core_kmain b) fun _ _ _ hk hstep => hk.exec hstep

/-- **The scheduler keeps one task in charge.**  After every call of `scheduler`, from any reachable state, the
current task is in the list and runs, and no other task but `idle` runs.  A task it switches to was ready, or is
`idle`; `idle` is switched to only when no other task was ready and the one before cannot go on; and no new,
waiting or dead task is ever switched to. -/
theorem scheduler_dispatches (b : BootTasks) {k : Kernel} (h : Reaches Kernel.Step b.kmain k) :
    k.scheduler.current ∈ k.scheduler.taskList ∧ k.scheduler.me.state = .running ∧
    (∀ t ∈ k.scheduler.taskList, t ≠ idle → (k.scheduler.tasks t).state = .running →
      t = k.scheduler.current) ∧
    (k.schedule.1 = none → k.scheduler.current = k.current) ∧
    ∀ n, k.schedule.1 = some n →
      k.scheduler.current = n ∧
      (n ≠ idle → (k.tasks n).state = .ready) ∧
      (n = idle → k.me.state ≠ .running ∧
        ∀ t ∈ k.taskList, t ≠ idle → t ≠ k.current → (k.tasks t).state ≠ .ready) ∧
      (k.tasks n).state ∉ [TaskState.new, .waiting, .zombie, .terminated] := by
  have hcore := core_of_reaches b h
  have hcore' := hcore.scheduler
  refine ⟨hcore'.current_mem, ?_, fun t ht hti hrun => ?_, ?_, ?_⟩
  · obtain ⟨kr, -, -, ⟨k', hsch, ht, hrun⟩ | ⟨n, k', hsch, hs, -, -, -⟩⟩ := Kernel.schedule_cases hcore
    · rw [Kernel.scheduler, hsch]
      exact ht.me_state.trans hrun
    · rw [Kernel.scheduler, hsch]
      show (k'.tasks k'.current).state = .running
      rw [hs.current]
      exact hs.next
  · rcases hcore'.running t ht hrun with ht | ht
    · exact ht
    · exact absurd ht hti
  · intro hnone
    obtain ⟨kr, hr, -, ⟨k', hsch, ht, -⟩ | ⟨n, k', hsch, -⟩⟩ := Kernel.schedule_cases hcore
    · rw [Kernel.scheduler, hsch]
      exact ht.current.trans hr.current
    · rw [hsch] at hnone
      cases hnone
  · intro n hn
    obtain ⟨kr, hr, hcr, ⟨k', hsch, -⟩ | ⟨m, k', hsch, hs, -, -, hwhy⟩⟩ := Kernel.schedule_cases hcore
    · rw [hsch] at hn
      cases hn
    · rw [hsch] at hn
      obtain rfl : m = n := Option.some.inj hn
      have hcurrent : k.scheduler.current = m := Kernel.current_of_schedule hcore (by rw [hsch])
      rcases hwhy with hready | ⟨hidle, hnone, hme⟩
      · obtain ⟨hstate, hmi, -⟩ := Kernel.nextReadyTask_some hready
        rw [hr.state] at hstate
        exact ⟨hcurrent, fun _ => hstate, fun hm => absurd hm hmi, by rw [hstate]; decide⟩
      · have hnotrun : k.me.state ≠ .running := by
          rw [Kernel.me, ← hr.state, ← hr.current]
          exact hme
        refine ⟨hcurrent, fun hm => absurd hidle hm, fun _ => ⟨hnotrun, fun t ht hti htc hrdy => ?_⟩, ?_⟩
        · -- a ready task is not reaped, so the walk from the current one meets it
          have hmem : t ∈ kr.taskList := by
            refine hr.mem.mpr ⟨ht, fun hd => ?_⟩
            rw [hd.2.2.2] at hrdy
            cases hrdy
          have hwalk : t ∈ rotateFrom kr.current kr.taskList :=
            (mem_rotateFrom hcr.nodup hcr.current_mem).mpr ⟨hmem, by rw [hr.current]; exact htc⟩
          apply Kernel.nextReadyTask_none hnone hwalk hti
          rw [hr.state]
          exact hrdy
        · rw [hidle, hcore.idleState]
          decide

/-- A boot with made-up addresses. -/
def sampleBoot : BootTasks where
  idleSpace := ⟨0x1000, 0x10000, by decide⟩
  initSpace := ⟨0x2000, 0x20000, by decide⟩
  idleFunc := 0x100
  initLoop := 0x200
  kernelPml4 := 0x3000
  rsp0 := 0x30000
  frame := .zero
  pitTicks := 0

/-- The first call of `scheduler` switches from `idle` to `init`. -/
theorem scheduler_dispatches_sampleBoot :
    sampleBoot.kmain.schedule.1 = some 1 ∧ sampleBoot.kmain.scheduler.current = 1 ∧
      sampleBoot.kmain.scheduler.me.state = .running := by
  have hnext : sampleBoot.kmain.schedule.1 = some 1 := by decide
  obtain ⟨-, hrun, -, -, hdispatch⟩ := scheduler_dispatches sampleBoot .start
  exact ⟨hnext, (hdispatch 1 hnext).1, hrun⟩

end LizardOs.Sched
