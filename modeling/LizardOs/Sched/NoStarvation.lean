import LizardOs.Sched.RoundRobin

/-!
# Every ready task has its turn

A ready task waits behind those the walk meets before it, and behind what is left of the quantum of the current task.
Each call of `scheduler` that does not switch to it spends some of this; only a new task adds to it.  So a task that
stays ready is switched to within a number of calls that its place in the ring bounds.
-/

namespace LizardOs.Sched

open LizardOs.Lib

namespace Kernel

variable {k k' : Kernel} {b n : ℕ}

/-! ### Steps that leave the quanta alone -/

/-- What is left of the quantum of every task stays. -/
def SameQuanta (k k' : Kernel) : Prop := ∀ x, (k'.tasks x).ticksRemaining = (k.tasks x).ticksRemaining

theorem SameQuanta.refl (k : Kernel) : SameQuanta k k := fun _ => rfl

theorem SameQuanta.trans {k'' : Kernel} (h : SameQuanta k k') (h' : SameQuanta k' k'') : SameQuanta k k'' :=
  fun x => (h' x).trans (h x)

theorem SameQuanta.setTask {f : Task → Task} (h : SameQuanta k k') (t : ℕ)
    (hf : ∀ c, (f c).ticksRemaining = c.ticksRemaining) : SameQuanta k (k'.setTask t f) := by
  intro x
  by_cases hx : x = t
  · rw [hx, setTask_self, hf, h]
  · rw [setTask_of_ne f hx, h]

theorem SameQuanta.foldl {g : Kernel → ℕ → Kernel} (hg : ∀ k x, SameQuanta k (g k x)) (l : List ℕ) (k : Kernel) :
    SameQuanta k (l.foldl g k) := by
  induction l generalizing k with
  | nil => exact .refl k
  | cons x l ih => exact (hg k x).trans (ih (g k x))

theorem sameQuanta_taskSetReady (k : Kernel) (t : ℕ) : SameQuanta k (k.taskSetReady t) := by
  rw [taskSetReady]
  split
  · exact (SameQuanta.refl k).setTask t fun _ => by rfl
  · exact .refl k

theorem sameQuanta_taskWake (k : Kernel) (t : ℕ) : SameQuanta k (k.taskWake t) := by
  rw [taskWake]
  split
  · exact .refl k
  · exact (SameQuanta.refl k).setTask t fun _ => by rfl

theorem sameQuanta_taskBlock (k : Kernel) (waitKind : WaitKind) : SameQuanta k (k.taskBlock waitKind) := by
  rw [taskBlock]
  split
  · exact .refl k
  · exact (SameQuanta.refl k).setTask _ fun _ => by rfl

theorem sameQuanta_wakeWhere (k : Kernel) (P : Task → Prop) [DecidablePred P] : SameQuanta k (k.wakeWhere P) := by
  intro x
  simp only [wakeWhere]
  split <;> rfl

theorem sameQuanta_spawnJoin (k : Kernel) (t rip rsp : ℕ) : SameQuanta k (k.spawnJoin t rip rsp).2 := by
  refine SameQuanta.trans ?_ (sameQuanta_taskSetReady _ t)
  exact ((SameQuanta.refl k).setTask t fun _ => by rfl).setTask _ fun _ => by rfl

theorem sameQuanta_reparent (me : ℕ) (k : Kernel) (c : ℕ) : SameQuanta k (reparent me k c) := by
  have hzombie : SameQuanta k (if (k.tasks c).state = .zombie then
      k.setTask c fun t => { t with state := .terminated } else k) := by
    split
    · exact (SameQuanta.refl k).setTask c fun _ => by rfl
    · exact .refl k
  rw [reparent]
  exact ((hzombie.setTask me fun _ => by rfl).setTask idle fun _ => by rfl).setTask c fun _ => by rfl

theorem sameQuanta_exitWith (k : Kernel) (code : ℤ) : SameQuanta k (k.exitWith code) := by
  have hcode : SameQuanta k (k.setTask k.current fun t => { t with exitCode := code }) :=
    (SameQuanta.refl k).setTask _ fun _ => by rfl
  refine hcode.trans ?_
  rw [exitWith]
  generalize (k.setTask k.current fun t => { t with exitCode := code }) = k₀
  rw [taskExit]
  simp only []
  have hchildren := SameQuanta.foldl (sameQuanta_reparent k₀.current) (k₀.tasks k₀.current).children k₀
  split
  · exact .refl k₀
  split
  · split
    · exact hchildren.setTask _ fun _ => by rfl
    · have hzombie := hchildren.setTask (f := fun t => { t with state := .zombie }) k₀.current fun _ => by rfl
      split
      · exact hzombie.trans (sameQuanta_taskWake _ _)
      · exact hzombie
  · exact hchildren.setTask _ fun _ => by rfl

theorem sameQuanta_taskWaitpid (k : Kernel) (pid : ℤ) : SameQuanta k (k.taskWaitpid pid).2 := by
  obtain ⟨hw, -⟩ | ⟨z, -, -, -, hw⟩ | ⟨hw, -⟩ := taskWaitpid_cases k pid
  · rw [hw]
    exact .refl k
  · rw [hw]
    show SameQuanta k (k.collect z)
    rw [collect]
    exact ((SameQuanta.refl k).setTask _ fun _ => by rfl).setTask z fun _ => by rfl
  · rw [hw]
    exact .refl k

/-- **Only `scheduler` and a new task** set a quantum. -/
theorem sameQuanta_of_exec {a : Action} (hstep : k.Step a k')
    (hcreate : ∀ e u o sp, a ≠ .taskCreate e u o sp) (hscheduler : a ≠ .scheduler) : SameQuanta k k' := by
  cases a with
  | entry frame =>
    obtain rfl := Option.some.inj hstep
    exact fun _ => rfl
  | taskCreate e u o sp => exact absurd rfl (hcreate e u o sp)
  | taskSetReady t =>
    obtain ⟨-, rfl⟩ := of_guard hstep
    exact sameQuanta_taskSetReady k t
  | spawnJoin t rip rsp =>
    obtain ⟨-, rfl⟩ := of_guard hstep
    exact sameQuanta_spawnJoin k t rip rsp
  | spawnFail t =>
    obtain ⟨-, rfl⟩ := of_guard hstep
    exact (SameQuanta.refl k).setTask (f := fun t => { t with state := .terminated }) t fun _ => by rfl
  | exit code =>
    obtain ⟨-, rfl⟩ := of_guard hstep
    exact sameQuanta_exitWith k code
  | waitpid pid =>
    obtain ⟨-, rfl⟩ := of_guard hstep
    exact sameQuanta_taskWaitpid k pid
  | block waitKind =>
    obtain ⟨-, rfl⟩ := of_guard hstep
    exact sameQuanta_taskBlock k waitKind
  | sleep ms =>
    obtain ⟨-, rfl⟩ := of_guard hstep
    exact (SameQuanta.refl k).setTask k.current fun _ => by rfl
  | wake t =>
    obtain ⟨-, rfl⟩ := of_guard hstep
    exact sameQuanta_taskWake k t
  | wakeAll waitKind =>
    obtain rfl := Option.some.inj hstep
    rw [taskWakeAll_eq]
    exact sameQuanta_wakeWhere k _
  | tick =>
    obtain rfl := Option.some.inj hstep
    rw [taskTick_eq]
    exact sameQuanta_wakeWhere { k with pitTicks := (k.pitTicks + 1) % 2 ^ 64 } _
  | scheduler => exact absurd rfl hscheduler

/-- A task that is switched to has a full quantum. -/
theorem dispatch_ticks (k : Kernel) (curRunnable : Bool) (n x : ℕ) :
    ((k.dispatch curRunnable n).tasks x).ticksRemaining =
      if x = n then TASK_TIMESLICE else (k.tasks x).ticksRemaining := by
  have hback : SameQuanta k (if curRunnable = true ∧ k.current ≠ idle then
      k.setTask k.current fun t => { t with state := .ready } else k) := by
    split
    · exact (SameQuanta.refl k).setTask _ fun _ => by rfl
    · exact .refl k
  rw [dispatch]
  generalize (if curRunnable = true ∧ k.current ≠ idle then
    k.setTask k.current fun t => { t with state := .ready } else k) = k₁ at hback ⊢
  have hnext : ((k₁.setTask n fun t => { t with state := .running, ticksRemaining := TASK_TIMESLICE }).tasks
      x).ticksRemaining = if x = n then TASK_TIMESLICE else (k.tasks x).ticksRemaining := by
    by_cases hx : x = n
    · rw [hx, setTask_self, if_pos rfl]
    · rw [setTask_of_ne _ hx, if_neg hx, hback]
  rw [← hnext]
  generalize (k₁.setTask n fun t => { t with state := .running, ticksRemaining := TASK_TIMESLICE }) = k₂
  split
  · rw [taskSwitchTo_tasks, taskSaveContext]
    exact (SameQuanta.refl k₂).setTask k₂.current (fun _ => by rfl) x
  · rfl

/-! ### No more than a full quantum -/

/-- No task has more than a full quantum. -/
def WithinQuantum (k : Kernel) : Prop := ∀ x, (k.tasks x).ticksRemaining ≤ TASK_TIMESLICE

theorem WithinQuantum.same (h : WithinQuantum k) (hs : SameQuanta k k') : WithinQuantum k' :=
  fun x => (hs x).trans_le (h x)

theorem WithinQuantum.setTask (h : WithinQuantum k) (t : ℕ) {f : Task → Task}
    (hf : ∀ c, c.ticksRemaining ≤ TASK_TIMESLICE → (f c).ticksRemaining ≤ TASK_TIMESLICE) :
    WithinQuantum (k.setTask t f) := by
  intro x
  by_cases hx : x = t
  · rw [hx, setTask_self]
    exact hf _ (h t)
  · rw [setTask_of_ne f hx]
    exact h x

theorem WithinQuantum.taskCreate (h : WithinQuantum k) (entryPoint : ℕ) (isUser onHeap : Bool)
    (space : AddrSpace) : WithinQuantum (k.taskCreate entryPoint isUser onHeap space) := by
  intro x
  by_cases hx : x = k.nextTask
  · rw [hx]
    simp [Kernel.taskCreate]
  · rw [taskCreate_of_ne hx]
    exact h x

theorem WithinQuantum.reaped {l : List ℕ} (h : WithinQuantum k) (hr : Reaped k k' l) : WithinQuantum k' := by
  intro x
  rw [hr.tasks]
  exact h x

theorem WithinQuantum.dispatch (h : WithinQuantum k) (curRunnable : Bool) :
    WithinQuantum (k.dispatch curRunnable n) := by
  intro x
  rw [dispatch_ticks]
  split
  · exact le_rfl
  · exact h x

/-- `k` with the tick of the current task spent, as the first half of `scheduler` leaves it. -/
def spendTick (k : Kernel) : Kernel :=
  if decide (k.me.state = .running) = true ∧ k.current ≠ idle then
    k.setTask k.current fun t => { t with ticksRemaining := t.ticksRemaining - 1 }
  else k

theorem ticked_spendTick (k : Kernel) : Ticked k k.spendTick := by
  rw [spendTick]
  split
  · exact (Ticked.refl k).setTask _ _
  · exact Ticked.refl k

theorem WithinQuantum.spendTick (h : WithinQuantum k) : WithinQuantum k.spendTick := by
  rw [Kernel.spendTick]
  split
  · exact h.setTask _ fun c hc => (Nat.sub_le _ 1).trans hc
  · exact h

theorem WithinQuantum.pick (h : WithinQuantum k) : WithinQuantum k.pick.2 := by
  rw [@pick_eq k k.spendTick rfl]
  split
  · exact h.spendTick
  · split
    · exact h.spendTick.dispatch _
    · split
      · exact h.spendTick.setTask (f := fun t => { t with ticksRemaining := TASK_TIMESLICE }) _ fun _ _ => le_rfl
      · exact h.spendTick.dispatch _

theorem WithinQuantum.scheduler (h : WithinQuantum k) : WithinQuantum k.scheduler := by
  rw [Kernel.scheduler, schedule]
  split
  · exact h
  · exact (h.reaped (reaped_reapTerminated k)).pick

theorem WithinQuantum.exec {a : Action} (h : WithinQuantum k) (hstep : k.Step a k') : WithinQuantum k' := by
  cases a with
  | taskCreate entryPoint isUser onHeap space =>
    obtain ⟨-, rfl⟩ := of_guard hstep
    exact h.taskCreate entryPoint isUser onHeap space
  | scheduler =>
    obtain rfl := Option.some.inj hstep
    exact h.scheduler
  | _ => exact h.same (sameQuanta_of_exec hstep (by simp) (by simp))

/-! ### How long a task waits -/

/-- What the current task has left of its quantum, if it goes on at all. -/
def quantum (k : Kernel) : ℕ :=
  if k.me.state = .running ∧ k.current ≠ idle then k.me.ticksRemaining else 0

/-- The calls of `scheduler` that may pass until `b` is switched to: a quantum and a call for each task that the walk
meets before it, and what is left to the current one. -/
def patience (b : ℕ) (k : Kernel) : ℕ :=
  (TASK_TIMESLICE + 1) * (rotateFrom k.current k.taskList).idxOf b + k.quantum

/-- Task `b` is ready and waits for its turn. -/
structure Queued (b : ℕ) (k : Kernel) : Prop where
  core : Core k
  ready : (k.tasks b).state = .ready
  notIdle : b ≠ idle
  mem : b ∈ rotateFrom k.current k.taskList
  within : WithinQuantum k

theorem WithinQuantum.quantum_le (h : WithinQuantum k) : k.quantum ≤ TASK_TIMESLICE := by
  rw [quantum]
  split
  · exact h k.current
  · exact Nat.zero_le _

/-- A task waits for less than a quantum and a call of each other task. -/
theorem Queued.patience_lt (h : Queued b k) : k.patience b < (TASK_TIMESLICE + 1) * (k.taskList.length - 1) := by
  have hplace := List.idxOf_lt_length_of_mem h.mem
  have hlength := length_rotateFrom h.core.current_mem
  have hquantum := h.within.quantum_le
  have hothers : (rotateFrom k.current k.taskList).idxOf b + 1 ≤ k.taskList.length - 1 := by omega
  calc k.patience b < (TASK_TIMESLICE + 1) * ((rotateFrom k.current k.taskList).idxOf b + 1) := by
        rw [patience, Nat.mul_succ]
        omega
    _ ≤ (TASK_TIMESLICE + 1) * (k.taskList.length - 1) := Nat.mul_le_mul_left _ hothers

theorem Queued.notCurrent (h : Queued b k) : b ≠ k.current :=
  ((mem_rotateFrom h.core.nodup h.core.current_mem).mp h.mem).2

/-- Steps that keep the ring and the quanta keep a task in its place, and give nobody more time. -/
theorem Queued.tame (h : Queued b k) (ht : Tame k k') (hq : SameQuanta k k') :
    Queued b k' ∧ k'.patience b ≤ k.patience b := by
  have hplace : rotateFrom k'.current k'.taskList = rotateFrom k.current k.taskList := by
    rw [ht.current, ht.taskList]
  refine ⟨⟨h.core.tame ht, ht.ready b h.notCurrent h.ready, h.notIdle, hplace ▸ h.mem, h.within.same hq⟩, ?_⟩
  have hquantum : k'.quantum ≤ k.quantum := by
    rw [quantum, quantum, me, me, hq, ht.current]
    split
    · rename_i hrun
      rw [if_pos ⟨ht.running _ hrun.1, hrun.2⟩]
    · exact Nat.zero_le _
  rw [patience, patience, hplace]
  omega

/-- A new task comes before `b` at most once. -/
theorem Queued.taskCreate (h : Queued b k) (entryPoint : ℕ) (isUser onHeap : Bool) (space : AddrSpace) :
    Queued b (k.taskCreate entryPoint isUser onHeap space) ∧
      (k.taskCreate entryPoint isUser onHeap space).patience b ≤ k.patience b + (TASK_TIMESLICE + 1) := by
  have hmem := ((mem_rotateFrom h.core.nodup h.core.current_mem).mp h.mem).1
  have hb : b ≠ k.nextTask := fun hb => h.core.nextTask_not_mem (hb ▸ hmem)
  have hcur : k.nextTask ≠ k.current := fun hc => h.core.nextTask_not_mem (hc ▸ h.core.current_mem)
  have hcore' := h.core.taskCreate entryPoint isUser onHeap space
  have hold := fun x hx => taskCreate_of_ne (k := k) (x := x) hx entryPoint isUser onHeap space
  have hwalk : b ∈ rotateFrom k.current (k.nextTask :: k.taskList) :=
    (mem_rotateFrom hcore'.nodup hcore'.current_mem).mpr ⟨List.mem_cons_of_mem _ hmem, h.notCurrent⟩
  refine ⟨⟨hcore', ?_, h.notIdle, hwalk, h.within.taskCreate entryPoint isUser onHeap space⟩, ?_⟩
  · rw [hold b hb]
    exact h.ready
  · have hquantum : (k.taskCreate entryPoint isUser onHeap space).quantum = k.quantum := by
      rw [quantum, quantum, me, show (k.taskCreate entryPoint isUser onHeap space).current = k.current from rfl,
        hold _ (Ne.symm hcur), me]
    have hplace : (rotateFrom k.current (k.nextTask :: k.taskList)).idxOf b ≤
        (rotateFrom k.current k.taskList).idxOf b + 1 := by
      rw [rotateFrom_cons hcur]
      exact idxOf_insert_le
    calc (k.taskCreate entryPoint isUser onHeap space).patience b
        = (TASK_TIMESLICE + 1) * (rotateFrom k.current (k.nextTask :: k.taskList)).idxOf b + k.quantum := by
          rw [patience, hquantum]
          rfl
      _ ≤ (TASK_TIMESLICE + 1) * ((rotateFrom k.current k.taskList).idxOf b + 1) + k.quantum :=
          Nat.add_le_add_right (Nat.mul_le_mul_left _ hplace) _
      _ = k.patience b + (TASK_TIMESLICE + 1) := by
          rw [patience, Nat.mul_succ]
          omega

/-- The reaper takes only dead tasks out of the ring. -/
theorem Queued.reaped {l : List ℕ} (h : Queued b k) (hr : Reaped k k' l) :
    Queued b k' ∧ k'.patience b ≤ k.patience b := by
  have hb : ¬k.Doomed b := fun hd => absurd (hd.2.2.symm.trans h.ready) (by decide)
  have hkeep : ∀ x, ¬k.Doomed x → (!decide (x ∈ l ∧ k.Doomed x)) = true := by
    intro x hx
    simp [hx]
  have hwalk : rotateFrom k'.current k'.taskList =
      (rotateFrom k.current k.taskList).filter fun t => !decide (t ∈ l ∧ k.Doomed t) := by
    rw [hr.current, hr.taskList,
      rotateFrom_filter (fun t => !decide (t ∈ l ∧ k.Doomed t)) (hkeep _ fun hd => hd.2.1 rfl)]
  refine ⟨⟨h.core.reaped hr, ?_, h.notIdle, ?_, h.within.reaped hr⟩, ?_⟩
  · rw [hr.state]
    exact h.ready
  · rw [hwalk]
    exact List.mem_filter.mpr ⟨h.mem, hkeep b hb⟩
  · have hquantum : k'.quantum = k.quantum := by
      rw [quantum, quantum, me, me, hr.current, hr.tasks]
      rfl
    have hplace := idxOf_filter_le (l := rotateFrom k.current k.taskList) (P := fun t => !decide (t ∈ l ∧ k.Doomed t))
      (hkeep b hb)
    rw [patience, patience, hquantum, hwalk]
    exact Nat.add_le_add_right (Nat.mul_le_mul_left _ hplace) _

/-- **The choice of `scheduler`**, when it does not fall on `b`, brings the turn of `b` nearer. -/
theorem Queued.pick (h : Queued b k) (hb : k.pick.1 ≠ some b) :
    Queued b k.pick.2 ∧ k.pick.2.patience b + 1 ≤ k.patience b := by
  have hticked := ticked_spendTick k
  have hplace : rotateFrom k.spendTick.current k.spendTick.taskList = rotateFrom k.current k.taskList := by
    rw [hticked.current, hticked.taskList]
  have h₁ : Queued b k.spendTick :=
    ⟨h.core.tame hticked.calm.tame, (hticked.state b).trans h.ready, h.notIdle, hplace ▸ h.mem, h.within.spendTick⟩
  have hwithin := h.within.pick
  have hpick := @pick_eq k k.spendTick rfl
  by_cases hgoes : decide (k.me.state = .running) = true ∧ k.current ≠ idle ∧ k.spendTick.me.ticksRemaining ≠ 0
  · -- the current task goes on, with one tick less
    rw [if_pos hgoes] at hpick
    obtain ⟨hrun, hidle, hticks⟩ := hgoes
    have hspent : k.spendTick.me.ticksRemaining = k.me.ticksRemaining - 1 := by
      rw [me, hticked.current, spendTick, if_pos ⟨hrun, hidle⟩, setTask_self]
      rfl
    have hquantum : k.quantum = k.me.ticksRemaining := if_pos ⟨of_decide_eq_true hrun, hidle⟩
    have hquantum₁ : k.spendTick.quantum = k.spendTick.me.ticksRemaining := by
      refine if_pos ⟨?_, hticked.current ▸ hidle⟩
      rw [hticked.me_state]
      exact of_decide_eq_true hrun
    rw [hpick]
    refine ⟨h₁, ?_⟩
    rw [patience, patience, hplace, hquantum, hquantum₁]
    omega
  rw [if_neg hgoes] at hpick
  cases hnext : k.spendTick.nextReadyTask with
  | none => exact absurd h₁.ready (nextReadyTask_none hnext h₁.mem h.notIdle)
  | some n =>
    -- the walk moves on to `n`, which lies before `b`
    rw [hnext] at hpick
    rw [hpick] at hb hwithin ⊢
    have hnb : n ≠ b := fun hn => hb (by rw [hn])
    obtain ⟨-, -, p, q, hpq, hp⟩ := nextReadyTask_some hnext
    have hbp : b ∉ p := fun hmem => hp b hmem ⟨h₁.ready, h.notIdle⟩
    have hn : n ∈ k.spendTick.taskList ∧ n ≠ k.spendTick.current := by
      refine (mem_rotateFrom h₁.core.nodup h₁.core.current_mem).mp ?_
      rw [hpq]
      simp
    obtain ⟨hmem, hnear⟩ := idxOf_move_lt h₁.core.nodup h₁.core.current_mem hpq h₁.mem hbp hnb
    have hs : Switched k.spendTick (k.spendTick.dispatch (decide (k.me.state = .running)) n) n := by
      rw [← hticked.me_state]
      exact switched_dispatch hn.2
    refine ⟨⟨h₁.core.switched hs hn.1, ?_, h.notIdle, ?_, hwithin⟩, ?_⟩
    · rw [hs.others b (Ne.symm hnb) h₁.notCurrent]
      exact h₁.ready
    · rw [hs.current, hs.taskList]
      exact hmem
    · have hquantum := hwithin.quantum_le
      have hturn : (TASK_TIMESLICE + 1) * ((rotateFrom n k.spendTick.taskList).idxOf b + 1) ≤
          (TASK_TIMESLICE + 1) * (rotateFrom k.spendTick.current k.spendTick.taskList).idxOf b :=
        Nat.mul_le_mul_left _ hnear
      rw [Nat.mul_succ] at hturn
      rw [patience, patience, hs.current, hs.taskList, ← hplace]
      simp only at hquantum ⊢
      omega

/-- **A call of `scheduler`** that does not switch to `b` brings its turn nearer. -/
theorem Queued.scheduler (h : Queued b k) (hb : k.schedule.1 ≠ some b) :
    Queued b k.scheduler ∧ k.scheduler.patience b + 1 ≤ k.patience b := by
  have hschedule : k.schedule = k.reapTerminated.pick := by
    rw [schedule, if_neg (by rw [h.core.enabled]; decide)]
  obtain ⟨hreaped, hle⟩ := h.reaped (reaped_reapTerminated k)
  rw [hschedule] at hb
  obtain ⟨hqueued, hlt⟩ := hreaped.pick hb
  rw [Kernel.scheduler, hschedule]
  exact ⟨hqueued, by omega⟩

/-- Is this step a call of `scheduler`? -/
def isCall (x : Kernel × Action) : Bool :=
  match x.2 with
  | .scheduler => true
  | _ => false

/-- Does this step create a task? -/
def isCreation (x : Kernel × Action) : Bool :=
  match x.2 with
  | .taskCreate _ _ _ _ => true
  | _ => false

/-- Every step but a switch to `b` keeps it queued; calls of `scheduler` use its patience up, and only a new task adds
to it. -/
theorem Queued.exec {c : Action} (h : Queued b k) (hstep : k.Step c k')
    (hb : c = .scheduler → k.schedule.1 ≠ some b) :
    Queued b k' ∧ k'.patience b + (isCall (k, c)).toNat ≤
      k.patience b + (TASK_TIMESLICE + 1) * (isCreation (k, c)).toNat := by
  cases c with
  | taskCreate entryPoint isUser onHeap space =>
    obtain ⟨-, rfl⟩ := of_guard hstep
    obtain ⟨hqueued, hle⟩ := h.taskCreate entryPoint isUser onHeap space
    exact ⟨hqueued, by simpa [isCall, isCreation] using hle⟩
  | scheduler =>
    obtain rfl := Option.some.inj hstep
    obtain ⟨hqueued, hle⟩ := h.scheduler (hb rfl)
    exact ⟨hqueued, by simpa [isCall, isCreation] using hle⟩
  | _ =>
    obtain ⟨hqueued, hle⟩ := h.tame (tame_of_exec h.core hstep (by simp) (by simp))
      (sameQuanta_of_exec hstep (by simp) (by simp))
    exact ⟨hqueued, by simpa [isCall, isCreation] using hle⟩

end Kernel

open Kernel

theorem within_of_reaches (boot : BootTasks) {k : Kernel} (h : Reaches Step boot.kmain k) : WithinQuantum k := by
  have hidle : WithinQuantum boot.schedInit := by
    have hnone : WithinQuantum boot.none := fun _ => Nat.zero_le _
    exact (hnone.taskCreate _ _ _ _).setTask idle fun _ hc => hc
  have hinit := (hidle.taskCreate boot.initLoop false false boot.initSpace).same (sameQuanta_taskSetReady _ 1)
  have hkmain : WithinQuantum boot.kmain := fun x => hinit x
  exact h.invariant hkmain fun _ _ _ hk hstep => hk.exec hstep

/-- **Bounded waiting.**  A task that is ready is switched to before `scheduler` has been called a quantum and one times
for each other task, where the tasks created in the meantime count as well. -/
theorem dispatched_within (boot : BootTasks) {k k₂ : Kernel} {b : ℕ} {l : List (Kernel × Action)}
    (hk : Reaches Step boot.kmain k) (hb : b ∈ k.taskList) (hbi : b ≠ idle) (hcur : b ≠ k.current)
    (hready : (k.tasks b).state = .ready) (hrun : Trace Step k l k₂)
    (hcalls : (TASK_TIMESLICE + 1) * (k.taskList.length - 1 + l.countP isCreation) ≤ l.countP isCall) :
    ∃ x ∈ l, x.2 = .scheduler ∧ x.1.schedule.1 = some b := by
  have hcore := core_of_reaches boot hk
  have hqueued : Queued b k :=
    ⟨hcore, hready, hbi, (mem_rotateFrom hcore.nodup hcore.current_mem).mpr ⟨hb, hcur⟩, within_of_reaches boot hk⟩
  by_contra hnone
  have hno : ∀ x ∈ l, x.2 = .scheduler → x.1.schedule.1 ≠ some b :=
    fun x hx h1 h2 => hnone ⟨x, hx, h1, h2⟩
  have hspent : Queued b k₂ ∧
      k₂.patience b + l.countP isCall ≤ k.patience b + (TASK_TIMESLICE + 1) * l.countP isCreation :=
    hrun.rank hqueued fun x hx s₂ hi hstep => hi.exec hstep (hno x hx)
  have hlt := hqueued.patience_lt
  rw [Nat.mul_add] at hcalls
  omega

/-- `init` runs, and the third task, which is ready, has its turn within two quanta and two calls. -/
theorem dispatched_within_twoReady :
    ∃ x ∈ twoReady.scheduler.passed (List.replicate 12 .scheduler), x.2 = .scheduler ∧ x.1.schedule.1 = some 2 := by
  have hready : Reaches Step sampleBoot.kmain twoReady := (trace_last (by decide)).reaches .start
  have hreach : Reaches Step sampleBoot.kmain twoReady.scheduler :=
    hready.next (show Step twoReady .scheduler twoReady.scheduler from rfl)
  exact dispatched_within sampleBoot hreach (by decide) (by decide) (by decide) (by decide) (trace_last (by decide))
    (by decide)

end LizardOs.Sched
