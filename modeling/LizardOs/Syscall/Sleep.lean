import LizardOs.Sched.Alive
import LizardOs.Syscall.Files

/-!
# Sleeping

`sys_sleep` and the timer tick that ends it.  The wake-up time of a task is kept in 32 bits and compared with the
64-bit count of ticks, so a sleep that ends beyond 2 ^ 32 ticks after boot ends early, unless it is over at the next
tick anyway.
-/

namespace LizardOs.Sched.Kernel

open LizardOs.Lib

variable {k k' : Kernel} {t : ℕ} {a : Action}

/-! ### Steps that leave the clock alone -/

/-- The count of ticks and every wake-up time stay. -/
structure SameClock (k k' : Kernel) : Prop where
  pitTicks : k'.pitTicks = k.pitTicks
  sleepUntil : ∀ x, (k'.tasks x).sleepUntil = (k.tasks x).sleepUntil

theorem SameClock.refl (k : Kernel) : SameClock k k := ⟨rfl, fun _ => rfl⟩

theorem SameClock.trans {k'' : Kernel} (h : SameClock k k') (h' : SameClock k' k'') : SameClock k k'' :=
  ⟨h'.pitTicks.trans h.pitTicks, fun x => (h'.sleepUntil x).trans (h.sleepUntil x)⟩

theorem SameClock.setTask {f : Task → Task} (h : SameClock k k') (t : ℕ)
    (hf : ∀ c, (f c).sleepUntil = c.sleepUntil) : SameClock k (k'.setTask t f) := by
  refine ⟨h.pitTicks, fun x => ?_⟩
  by_cases hx : x = t
  · rw [hx, setTask_self, hf, h.sleepUntil]
  · rw [setTask_of_ne f hx, h.sleepUntil]

theorem SameClock.foldl {g : Kernel → ℕ → Kernel} (hg : ∀ k x, SameClock k (g k x)) (l : List ℕ) (k : Kernel) :
    SameClock k (l.foldl g k) := by
  induction l generalizing k with
  | nil => exact .refl k
  | cons x l ih => exact (hg k x).trans (ih (g k x))

theorem sameClock_taskSetReady (k : Kernel) (t : ℕ) : SameClock k (k.taskSetReady t) := by
  rw [taskSetReady]
  split
  · exact (SameClock.refl k).setTask t fun _ => by rfl
  · exact .refl k

theorem sameClock_taskWake (k : Kernel) (t : ℕ) : SameClock k (k.taskWake t) := by
  rw [taskWake]
  split
  · exact .refl k
  · exact (SameClock.refl k).setTask t fun _ => by rfl

theorem sameClock_taskBlock (k : Kernel) (waitKind : WaitKind) : SameClock k (k.taskBlock waitKind) := by
  rw [taskBlock]
  split
  · exact .refl k
  · exact (SameClock.refl k).setTask _ fun _ => by rfl

theorem sameClock_wakeWhere (k : Kernel) (P : Task → Prop) [DecidablePred P] : SameClock k (k.wakeWhere P) := by
  refine ⟨rfl, fun x => ?_⟩
  simp only [wakeWhere]
  split <;> rfl

theorem sameClock_spawnJoin (k : Kernel) (t rip rsp : ℕ) : SameClock k (k.spawnJoin t rip rsp).2 := by
  refine SameClock.trans ?_ (sameClock_taskSetReady _ t)
  exact ((SameClock.refl k).setTask t fun _ => by rfl).setTask _ fun _ => by rfl

theorem sameClock_reparent (me : ℕ) (k : Kernel) (c : ℕ) : SameClock k (reparent me k c) := by
  have hzombie : SameClock k (if (k.tasks c).state = .zombie then
      k.setTask c fun t => { t with state := .terminated } else k) := by
    split
    · exact (SameClock.refl k).setTask c fun _ => by rfl
    · exact .refl k
  rw [reparent]
  exact ((hzombie.setTask me fun _ => by rfl).setTask idle fun _ => by rfl).setTask c fun _ => by rfl

theorem sameClock_exitWith (k : Kernel) (code : ℤ) : SameClock k (k.exitWith code) := by
  have hcode : SameClock k (k.setTask k.current fun t => { t with exitCode := code }) :=
    (SameClock.refl k).setTask _ fun _ => by rfl
  refine hcode.trans ?_
  show SameClock _ (k.setTask k.current fun t => { t with exitCode := code }).taskExit
  generalize (k.setTask k.current fun t => { t with exitCode := code }) = k₀
  rw [taskExit]
  simp only []
  have hchildren := SameClock.foldl (sameClock_reparent k₀.current) (k₀.tasks k₀.current).children k₀
  split
  · exact .refl k₀
  split
  · split
    · exact hchildren.setTask _ fun _ => by rfl
    · have hzombie := hchildren.setTask (f := fun t => { t with state := .zombie }) k₀.current fun _ => by rfl
      split
      · exact hzombie.trans (sameClock_taskWake _ _)
      · exact hzombie
  · exact hchildren.setTask _ fun _ => by rfl

theorem sameClock_taskWaitpid (k : Kernel) (pid : ℤ) : SameClock k (k.taskWaitpid pid).2 := by
  obtain ⟨hw, -⟩ | ⟨z, -, -, -, hw⟩ | ⟨hw, -⟩ := taskWaitpid_cases k pid
  · rw [hw]
    exact .refl k
  · rw [hw]
    show SameClock k (k.collect z)
    rw [collect]
    exact ((SameClock.refl k).setTask _ fun _ => by rfl).setTask z fun _ => by rfl
  · rw [hw]
    exact .refl k

theorem sameClock_reapTask (k : Kernel) (t : ℕ) : SameClock k (k.reapTask t) := by
  rw [reapTask]
  split
  · exact .refl k
  · refine ⟨rfl, fun x => ?_⟩
    show ((if (k.tasks t).siblingLinked then
        fun p => { k.tasks p with children := listDel t (k.tasks p).children } else k.tasks) x).sleepUntil = _
    split <;> rfl

theorem SameClock.taskSwitchTo (h : SameClock k k') (next : ℕ) : SameClock k (k'.taskSwitchTo next) := by
  have hsave : SameClock k k'.taskSaveContext := by
    rw [taskSaveContext]
    exact h.setTask _ fun _ => by rfl
  exact ⟨hsave.pitTicks, hsave.sleepUntil⟩

theorem sameClock_dispatch (k : Kernel) (curRunnable : Bool) (next : ℕ) :
    SameClock k (k.dispatch curRunnable next) := by
  have hback : SameClock k (if curRunnable = true ∧ k.current ≠ idle then
      k.setTask k.current fun t => { t with state := .ready } else k) := by
    split
    · exact (SameClock.refl k).setTask _ fun _ => by rfl
    · exact .refl k
  have hnext := hback.setTask (f := fun t => { t with state := .running, ticksRemaining := TASK_TIMESLICE })
    next fun _ => by rfl
  rw [dispatch]
  split
  · exact hnext.taskSwitchTo next
  · exact hnext

theorem sameClock_scheduler (k : Kernel) : SameClock k k.scheduler := by
  rw [scheduler, schedule]
  split
  · exact .refl k
  refine (SameClock.foldl sameClock_reapTask k.taskList k).trans ?_
  show SameClock k.reapTerminated k.reapTerminated.pick.2
  generalize k.reapTerminated = kr
  have hspend : SameClock kr (if decide (kr.me.state = .running) = true ∧ kr.current ≠ idle then
      kr.setTask kr.current fun t => { t with ticksRemaining := t.ticksRemaining - 1 } else kr) := by
    split
    · exact (SameClock.refl kr).setTask _ fun _ => by rfl
    · exact .refl kr
  rw [pick]
  generalize (if decide (kr.me.state = .running) = true ∧ kr.current ≠ idle then
      kr.setTask kr.current fun t => { t with ticksRemaining := t.ticksRemaining - 1 } else kr) = k₁ at hspend ⊢
  split
  · exact hspend
  · split
    · exact hspend.trans (sameClock_dispatch k₁ _ _)
    · split
      · show SameClock kr (k₁.setTask kr.current fun t => { t with ticksRemaining := TASK_TIMESLICE })
        exact hspend.setTask _ fun _ => by rfl
      · exact hspend.trans (sameClock_dispatch k₁ _ _)

/-! ### What a step does to a sleeper -/

/-- The task sleeps. -/
def Asleep (k : Kernel) (t : ℕ) : Prop := (k.tasks t).state = .waiting ∧ (k.tasks t).waitKind = .sleep

instance (k : Kernel) (t : ℕ) : Decidable (k.Asleep t) := inferInstanceAs (Decidable (_ ∧ _))

/-- **Only a tick, a sleep and a new task** set a clock or a wake-up time. -/
theorem sameClock_of_exec (hstep : k.Step a k') :
    SameClock k k' ∨ a = .tick ∨ (∃ ms, a = .sleep ms) ∨
      ∃ entryPoint isUser onHeap space, a = .taskCreate entryPoint isUser onHeap space := by
  cases a with
  | entry frame =>
    obtain rfl := Option.some.inj hstep
    exact .inl ⟨rfl, fun _ => rfl⟩
  | taskCreate entryPoint isUser onHeap space => exact .inr (.inr (.inr ⟨entryPoint, isUser, onHeap, space, rfl⟩))
  | taskSetReady t =>
    obtain ⟨-, rfl⟩ := of_guard hstep
    exact .inl (sameClock_taskSetReady k t)
  | spawnJoin t rip rsp =>
    obtain ⟨-, rfl⟩ := of_guard hstep
    exact .inl (sameClock_spawnJoin k t rip rsp)
  | spawnFail t =>
    obtain ⟨-, rfl⟩ := of_guard hstep
    exact .inl ((SameClock.refl k).setTask (f := fun t => { t with state := .terminated }) t fun _ => rfl)
  | exit code =>
    obtain ⟨-, rfl⟩ := of_guard hstep
    exact .inl (sameClock_exitWith k code)
  | waitpid pid =>
    obtain ⟨-, rfl⟩ := of_guard hstep
    exact .inl (sameClock_taskWaitpid k pid)
  | block waitKind =>
    obtain ⟨-, rfl⟩ := of_guard hstep
    exact .inl (sameClock_taskBlock k waitKind)
  | sleep ms => exact .inr (.inr (.inl ⟨ms, rfl⟩))
  | wake t =>
    obtain ⟨-, rfl⟩ := of_guard hstep
    exact .inl (sameClock_taskWake k t)
  | wakeAll waitKind =>
    obtain rfl := Option.some.inj hstep
    rw [taskWakeAll_eq]
    exact .inl (sameClock_wakeWhere k _)
  | tick => exact .inr (.inl rfl)
  | scheduler =>
    obtain rfl := Option.some.inj hstep
    exact .inl (sameClock_scheduler k)

theorem pitTicks_of_exec (hstep : k.Step a k') (ha : a ≠ .tick) : k'.pitTicks = k.pitTicks := by
  obtain hsame | rfl | ⟨ms, rfl⟩ | ⟨entryPoint, isUser, onHeap, space, rfl⟩ := sameClock_of_exec hstep
  · exact hsame.pitTicks
  · exact absurd rfl ha
  · obtain ⟨-, rfl⟩ := of_guard hstep
    rfl
  · obtain ⟨-, rfl⟩ := of_guard hstep
    rfl

/-- **No step changes the wake-up time** of a task that waits. -/
theorem sleepUntil_of_exec (hcore : Core k) (hstep : k.Step a k') (ht : t ∈ k.taskList)
    (hwait : (k.tasks t).state = .waiting) : (k'.tasks t).sleepUntil = (k.tasks t).sleepUntil := by
  obtain hsame | rfl | ⟨ms, rfl⟩ | ⟨entryPoint, isUser, onHeap, space, rfl⟩ := sameClock_of_exec hstep
  · exact hsame.sleepUntil t
  · obtain rfl := Option.some.inj hstep
    rw [taskTick_eq]
    exact (sameClock_wakeWhere { k with pitTicks := (k.pitTicks + 1) % 2 ^ 64 } _).sleepUntil t
  · -- only a running task goes to sleep
    obtain ⟨⟨hrun, -⟩, rfl⟩ := of_guard hstep
    have hne : t ≠ k.current := by
      rintro rfl
      exact absurd (hrun.symm.trans hwait) (by decide)
    rw [taskSleep, setTask_of_ne _ hne]
  · obtain ⟨-, rfl⟩ := of_guard hstep
    rw [taskCreate_of_ne fun h => hcore.nextTask_not_mem (h ▸ ht)]

/-- **A tick** counts, and wakes a sleeper of the list exactly when its time has come. -/
theorem tick_asleep (hstep : k.Step .tick k') (ht : t ∈ k.taskList) (hasleep : k.Asleep t) :
    k'.pitTicks = (k.pitTicks + 1) % 2 ^ 64 ∧
      k'.tasks t = if (k.tasks t).sleepUntil ≤ k'.pitTicks then (k.tasks t).woken else k.tasks t := by
  obtain rfl := Option.some.inj hstep
  rw [taskTick_eq]
  refine ⟨rfl, ?_⟩
  simp only [wakeWhere, ht, hasleep.1, hasleep.2, true_and]

/-- A tick moves a sleeper to the ready tasks exactly when its wake-up time has come. -/
theorem ready_tick_iff (hstep : k.Step .tick k') (ht : t ∈ k.taskList) (hasleep : k.Asleep t) :
    (k'.tasks t).state = .ready ↔ (k.tasks t).sleepUntil ≤ k'.pitTicks := by
  rw [(tick_asleep hstep ht hasleep).2]
  split
  · rename_i hdue
    exact ⟨fun _ => hdue, fun _ => rfl⟩
  · rename_i hdue
    rw [hasleep.1]
    refine ⟨fun h => ?_, fun h => absurd h hdue⟩
    cases h

/-- A task that sleeps until `deadline`, in a state the system can be in. -/
structure Sleeper (k : Kernel) (t deadline : ℕ) : Prop where
  core : Core k
  tree : Tree k
  alive : Alive k t
  deadline : (k.tasks t).sleepUntil = deadline

theorem Sleeper.exec {deadline : ℕ} (h : k.Sleeper t deadline) (hasleep : k.Asleep t) (hstep : k.Step a k') :
    k'.Sleeper t deadline := by
  refine ⟨h.core.exec hstep, h.tree.exec h.core hstep, h.alive.exec h.core h.tree hstep fun code ha => ?_,
    (sleepUntil_of_exec h.core hstep h.alive.1 hasleep.1).trans h.deadline⟩
  -- an exit is one of a running task
  rintro rfl
  subst ha
  obtain ⟨hrun, -⟩ := of_guard hstep
  exact absurd (hrun.symm.trans hasleep.1) (by decide)

/-- Ticks up to the one before the wake-up time leave a sleeper asleep. -/
theorem Sleeper.ticks {deadline T : ℕ} (h : k.Sleeper t deadline) (hasleep : k.Asleep t) (hT : k.pitTicks = T)
    (hlt : T < 2 ^ 64) (n : ℕ) (hearly : ∀ i, 0 < i → i ≤ n → (T + i) % 2 ^ 64 < deadline) :
    ∃ l k', Trace Step k l k' ∧ (∀ x ∈ l, x.1.Asleep t) ∧ k'.Asleep t ∧ k'.Sleeper t deadline ∧
      k'.pitTicks = (T + n) % 2 ^ 64 := by
  induction n with
  | zero =>
    refine ⟨[], k, .nil, by simp, hasleep, h, ?_⟩
    rw [hT, Nat.add_zero, Nat.mod_eq_of_lt hlt]
  | succ n ih =>
    obtain ⟨l, k₁, hrun, hall, hasleep₁, h₁, hticks⟩ := ih fun i hi hin => hearly i hi (by omega)
    obtain ⟨k₂, hstep⟩ : ∃ k₂, Step k₁ .tick k₂ := ⟨_, rfl⟩
    obtain ⟨hticks₂, htask⟩ := tick_asleep hstep h₁.alive.1 hasleep₁
    have hcount : k₂.pitTicks = (T + (n + 1)) % 2 ^ 64 := by
      rw [hticks₂, hticks, Nat.mod_add_mod, Nat.add_assoc]
    rw [h₁.deadline, hcount, if_neg (Nat.not_le.mpr (hearly (n + 1) (by omega) le_rfl))] at htask
    refine ⟨l ++ [(k₁, .tick)], k₂, hrun.snoc hstep, ?_, ?_, h₁.exec hasleep₁ hstep, hcount⟩
    · intro x hx
      rcases List.mem_append.mp hx with hx | hx
      · exact hall x hx
      · rw [List.mem_singleton.mp hx]
        exact hasleep₁
    · rw [Asleep, htask]
      exact hasleep₁

end LizardOs.Sched.Kernel

namespace LizardOs.Syscall

open LizardOs.Lib LizardOs.Sched LizardOs.Sched.Kernel

variable {k : Kernel} {t deadline : ℕ}

/-- `sys_sleep`, up to the reschedule at its end: the argument is a `long`, and `task_sleep` takes 32 bits of it. -/
def sysSleep (k : Kernel) (ms : ℤ) : ℤ × Kernel :=
  if ms < 0 then (-EINVAL, k) else (0, k.taskSleep (ms.toNat % 2 ^ 32))

/-- A sleep that has begun in `k` lasts until `wakeAt`: in every run in which the task has been asleep so far, a tick
makes it ready exactly when the count of ticks has reached `wakeAt`. -/
def SleepsUntil (k : Kernel) (t wakeAt : ℕ) : Prop :=
  ∀ (l : List (Kernel × Action)) (k₁ k₂ : Kernel), Trace Step k l k₁ → (∀ x ∈ l, x.1.Asleep t) → k₁.Asleep t →
    Step k₁ .tick k₂ → ((k₂.tasks t).state = .ready ↔ wakeAt ≤ k₂.pitTicks)

/-- A sleep of `ms` that begins at tick `T` and ends in time: its end has 32 bits, or comes with the next tick. -/
def EndsInTime (T ms : ℕ) : Prop := T + ms < 2 ^ 32 ∨ (ms ≤ 1 ∧ T + 1 < 2 ^ 64)

theorem sleeper_of_trace {l : List (Kernel × Action)} {k₁ : Kernel} (h : k.Sleeper t deadline)
    (hrun : Trace Step k l k₁) (hall : ∀ x ∈ l, x.1.Asleep t) : k₁.Sleeper t deadline :=
  hrun.invariant (I := fun s => s.Sleeper t deadline) h fun x hx _ hprev hstep => hprev.exec (hall x hx) hstep

/-- When the wake-up time has come by the next tick, no tick has passed while the task was asleep. -/
theorem pitTicks_of_trace {l : List (Kernel × Action)} {k₁ : Kernel} (h : k.Sleeper t deadline)
    (hnext : deadline ≤ (k.pitTicks + 1) % 2 ^ 64) (hrun : Trace Step k l k₁) (hall : ∀ x ∈ l, x.1.Asleep t)
    (hasleep : k₁.Asleep t) : k₁.pitTicks = k.pitTicks := by
  have hinv : k₁.Sleeper t deadline ∧ (k₁.Asleep t → k₁.pitTicks = k.pitTicks) := by
    refine hrun.invariant (I := fun s => s.Sleeper t deadline ∧ (s.Asleep t → s.pitTicks = k.pitTicks))
      ⟨h, fun _ => rfl⟩ fun x hx s₂ hprev hstep => ?_
    obtain ⟨hsleeper, hcount⟩ := hprev
    have hasleepx := hall x hx
    refine ⟨hsleeper.exec hasleepx hstep, fun hasleep₂ => ?_⟩
    by_cases htick : x.2 = .tick
    · -- this tick would have woken the task
      rw [htick] at hstep
      have hready := (ready_tick_iff hstep hsleeper.alive.1 hasleepx).mpr (by
        rw [hsleeper.deadline, (tick_asleep hstep hsleeper.alive.1 hasleepx).1, hcount hasleepx]
        exact hnext)
      rw [hasleep₂.1] at hready
      cases hready
    · rw [pitTicks_of_exec hstep htick, hcount hasleepx]
  exact hinv.2 hasleep

/-- The wake-up time that is stored, of a sleep that ends beyond 32 bits, is over before its end. -/
theorem wake_early {T ms n : ℕ} (hlate : 2 ^ 32 ≤ T + ms) (hlong : 2 ≤ ms ∨ T + 1 = 2 ^ 64) (hT : T < 2 ^ 64)
    (hn : n = (T + 1) % 2 ^ 64 ∨ n < 2 ^ 32) : n < T + ms := by
  rcases hn with rfl | hn
  · rcases hlong with hms | hms
    · by_cases hwrap : T + 1 < 2 ^ 64
      · rw [Nat.mod_eq_of_lt hwrap]
        omega
      · have hzero : (T + 1) % 2 ^ 64 = 0 := by
          rw [show T + 1 = 2 ^ 64 by omega, Nat.mod_self]
        omega
    · rw [hms, Nat.mod_self]
      omega
  · omega

/-- The task that has called `sys_sleep` sleeps until the low 32 bits of the end of its sleep. -/
theorem sleeper_sysSleep (boot : BootTasks) (h : Reaches Step boot.kmain k) (hrun : k.me.state = .running)
    (huser : k.me.isUser = true) {ms : ℤ} (hms : 0 ≤ ms) :
    (sysSleep k ms).2.Sleeper k.current ((k.pitTicks + ms.toNat) % 2 ^ 32) ∧
      (sysSleep k ms).2.Asleep k.current ∧ (sysSleep k ms).2.pitTicks = k.pitTicks := by
  have hstep : Step k (.sleep (ms.toNat % 2 ^ 32)) (sysSleep k ms).2 := by
    rw [sysSleep, if_neg (not_lt.mpr hms)]
    exact if_pos ⟨hrun, huser⟩
  obtain ⟨hcore, htree⟩ := tree_of_reaches boot h
  have htask : (sysSleep k ms).2.tasks k.current = { k.me with
      sleepUntil := (k.pitTicks + ms.toNat) % 2 ^ 32, waitKind := .sleep, state := .waiting } := by
    rw [sysSleep, if_neg (not_lt.mpr hms)]
    show (k.taskSleep (ms.toNat % 2 ^ 32)).tasks k.current = _
    rw [taskSleep, setTask_self, Nat.add_mod_mod]
    rfl
  have halive : k.Alive k.current := ⟨hcore.current_mem, by
    rw [show (k.tasks k.current).state = _ from hrun]
    decide⟩
  refine ⟨⟨hcore.exec hstep, htree.exec hcore hstep, halive.exec hcore htree hstep (by simp), ?_⟩, ?_,
    pitTicks_of_exec hstep (by simp)⟩
  · rw [htask]
  · rw [Asleep, htask]
    exact ⟨rfl, rfl⟩

/-- **When a sleep lasts as long as asked.**  In every reachable state a user task that calls `sys_sleep(ms)` at tick
`T` is woken by the first tick at which the count has reached `T + ms`, and by none before, whatever the rest of the
system does meanwhile, exactly when `T + ms` has 32 bits or the next tick comes that late anyway. -/
theorem sleepsUntil_iff (boot : BootTasks) (h : Reaches Step boot.kmain k) (hrun : k.me.state = .running)
    (huser : k.me.isUser = true) (hT : k.pitTicks < 2 ^ 64) {ms : ℤ} (hms : 0 ≤ ms) :
    SleepsUntil (sysSleep k ms).2 k.current (k.pitTicks + ms.toNat) ↔ EndsInTime k.pitTicks ms.toNat := by
  obtain ⟨hsleeper, hasleep, hticks⟩ := sleeper_sysSleep boot h hrun huser hms
  generalize (sysSleep k ms).2 = ks at hsleeper hasleep hticks ⊢
  generalize k.pitTicks = T at hT hsleeper hticks ⊢
  generalize ms.toNat = n at hsleeper ⊢
  constructor
  · intro hsleeps
    by_contra hend
    obtain ⟨hlate, hlong⟩ : 2 ^ 32 ≤ T + n ∧ (2 ≤ n ∨ T + 1 = 2 ^ 64) := by
      rw [EndsInTime] at hend
      omega
    have hsmall : (T + n) % 2 ^ 32 < 2 ^ 32 := Nat.mod_lt _ (by decide)
    -- the first tick at which the stored time has come
    obtain ⟨m, hdue, hm, hearly⟩ : ∃ m, (T + n) % 2 ^ 32 ≤ (T + (m + 1)) % 2 ^ 64 ∧
        ((T + (m + 1)) % 2 ^ 64 = (T + 1) % 2 ^ 64 ∨ (T + (m + 1)) % 2 ^ 64 < 2 ^ 32) ∧
        ∀ i, 0 < i → i ≤ m → (T + i) % 2 ^ 64 < (T + n) % 2 ^ 32 := by
      by_cases hnext : (T + n) % 2 ^ 32 ≤ (T + 1) % 2 ^ 64
      · exact ⟨0, hnext, .inl rfl, fun i hi hi0 => by omega⟩
      · have hcount : ∀ i, i ≤ (T + n) % 2 ^ 32 - (T + 1) % 2 ^ 64 →
            (T + (i + 1)) % 2 ^ 64 = (T + 1) % 2 ^ 64 + i := by
          intro i hi
          rw [show T + (i + 1) = T + 1 + i by omega, Nat.add_mod, Nat.mod_eq_of_lt (a := i) (by omega),
            Nat.mod_eq_of_lt (by omega)]
        refine ⟨(T + n) % 2 ^ 32 - (T + 1) % 2 ^ 64, ?_, .inr ?_, fun i hi him => ?_⟩
        · rw [hcount _ le_rfl]
          omega
        · rw [hcount _ le_rfl]
          omega
        · obtain ⟨j, rfl⟩ : ∃ j, i = j + 1 := ⟨i - 1, by omega⟩
          rw [hcount j (by omega)]
          omega
    obtain ⟨l, k₁, htrace, hall, hasleep₁, hsleeper₁, hticks₁⟩ := hsleeper.ticks hasleep hticks hT m hearly
    obtain ⟨k₂, hstep⟩ : ∃ k₂, Step k₁ .tick k₂ := ⟨_, rfl⟩
    have hticks₂ : k₂.pitTicks = (T + (m + 1)) % 2 ^ 64 := by
      rw [(tick_asleep hstep hsleeper₁.alive.1 hasleep₁).1, hticks₁, Nat.mod_add_mod, Nat.add_assoc]
    have hready := (ready_tick_iff hstep hsleeper₁.alive.1 hasleep₁).mpr (by
      rw [hsleeper₁.deadline, hticks₂]
      exact hdue)
    have hreached := (hsleeps l k₁ k₂ htrace hall hasleep₁ hstep).mp hready
    rw [hticks₂] at hreached
    exact absurd hreached (Nat.not_le.mpr (wake_early hlate hlong hT hm))
  · rintro hend l k₁ k₂ htrace hall hasleep₁ hstep
    have hsleeper₁ := sleeper_of_trace hsleeper htrace hall
    have hcount := (tick_asleep hstep hsleeper₁.alive.1 hasleep₁).1
    rw [ready_tick_iff hstep hsleeper₁.alive.1 hasleep₁, hsleeper₁.deadline]
    by_cases hfits : T + n < 2 ^ 32
    · rw [Nat.mod_eq_of_lt hfits]
    · obtain ⟨hn, hnext⟩ := hend.resolve_left hfits
      have hdue : (T + n) % 2 ^ 32 ≤ (T + 1) % 2 ^ 64 := by
        rw [Nat.mod_eq_of_lt hnext]
        have := Nat.mod_lt (T + n) (show 0 < 2 ^ 32 by decide)
        omega
      have hfirst := pitTicks_of_trace hsleeper (hticks ▸ hdue) htrace hall hasleep₁
      rw [hcount, hfirst, hticks, Nat.mod_eq_of_lt hnext]
      rw [Nat.mod_eq_of_lt hnext] at hdue
      exact ⟨fun _ => by omega, fun _ => hdue⟩

/-- A boot at a given count of ticks. -/
def bootAt (ticks : ℕ) : BootTasks :=
  { sampleBoot with pitTicks := ticks }

theorem userPml4_ne : 0x4000 ≠ 0 := by decide

/-- `init` starts a user task, and waits for it. -/
def userRuns : List Action :=
  [.scheduler, .taskCreate 0x300 true false ⟨0x4000, 0x40000, userPml4_ne⟩, .taskSetReady 2, .block .child, .scheduler]

/-- Soon after boot a sleep of five milliseconds lasts as long as asked. -/
theorem sleepsUntil_iff_boot : SleepsUntil (sysSleep ((bootAt 0).kmain.last userRuns) 5).2 2 (0 + 5) := by
  have hreach : Reaches Step (bootAt 0).kmain ((bootAt 0).kmain.last userRuns) :=
    (trace_last (by decide)).reaches .start
  exact (sleepsUntil_iff (bootAt 0) hreach (by decide) (by decide) (by decide)
    (show (0 : ℤ) ≤ 5 by decide)).mpr (.inl (by decide))

/-- The user task at tick 2 ^ 32 - 1. -/
def lateUser : Kernel := (bootAt 4294967295).kmain.last userRuns

/-- There a sleep of five milliseconds ends with the next tick. -/
theorem not_sleepsUntil_lateUser :
    Reaches Step (bootAt 4294967295).kmain lateUser ∧ lateUser.me.state = .running ∧ lateUser.me.isUser = true ∧
      lateUser.pitTicks = 4294967295 ∧
      ¬SleepsUntil (sysSleep lateUser 5).2 lateUser.current (lateUser.pitTicks + 5) := by
  have hreach : Reaches Step (bootAt 4294967295).kmain lateUser := (trace_last (by decide)).reaches .start
  refine ⟨hreach, by decide, by decide, by decide, fun hsleeps => ?_⟩
  obtain ⟨k₂, hstep⟩ : ∃ k₂, Step (sysSleep lateUser 5).2 .tick k₂ := ⟨_, rfl⟩
  have hiff := hsleeps [] _ k₂ .nil (by simp) (by decide) hstep
  obtain rfl := Option.some.inj hstep
  exact absurd (hiff.mp (by decide)) (by decide)

end LizardOs.Syscall
