import LizardOs.Sched.Effects

/-!
# Registers across switches

When the scheduler switches away from a task, the trap frame of that moment is put down beside the kernel.  Until
the task is switched to again nobody writes its saved registers: a new task gets its own, the image of a spawned
task is set up before it first runs, and every other switch saves elsewhere.  So the frame that is loaded is the
one that was put down.
-/

namespace LizardOs.Sched

open LizardOs.Lib

namespace Kernel

variable {k k' : Kernel} {x n : ℕ} {a : Action}

/-- What an exit leaves of a task: its registers and its memory, and it does not become new. -/
theorem exited_context {code : ℤ} (he : Exited k k' code) (x : ℕ) :
    (k'.tasks x).regs = (k.tasks x).regs ∧ (k'.tasks x).pml4 = (k.tasks x).pml4 ∧
      ((k'.tasks x).state = .new → (k.tasks x).state = .new) := by
  by_cases hxc : x = k.current
  · rw [hxc, he.me]
    refine ⟨rfl, rfl, fun hst => ?_⟩
    simp only [] at hst
    split at hst
    · cases hst
    · cases hst
  by_cases hxi : x = idle
  · rw [hxi, he.idle]
    exact ⟨rfl, rfl, fun hst => hst⟩
  have hbase : ∀ t : Task, t = (if x ∈ k.me.children then (k.tasks x).orphaned else k.tasks x) →
      t.regs = (k.tasks x).regs ∧ t.pml4 = (k.tasks x).pml4 ∧ (t.state = .new → (k.tasks x).state = .new) := by
    intro t ht
    rw [ht]
    split
    · refine ⟨rfl, rfl, fun hst => ?_⟩
      simp only [Task.orphaned] at hst
      split at hst
      · cases hst
      · exact hst
    · exact ⟨rfl, rfl, fun hst => hst⟩
  by_cases hp : k.me.parent = some x
  · have hkept := hbase _ rfl
    rw [he.parent x hxc hxi hp]
    generalize (if x ∈ k.me.children then (k.tasks x).orphaned else k.tasks x) = t at hkept ⊢
    rw [Task.childExited]
    split
    · refine ⟨hkept.1, hkept.2.1, fun hst => ?_⟩
      cases hst
    · exact hkept
  · rw [he.others x hxc hxi hp]
    exact hbase _ rfl

/-- **The saved registers of a task** that is not new, its page table, and that it is not new, survive every step
that is not a call of the scheduler. -/
theorem context_of_exec (hcore : Core k) (htree : Tree k) (hstep : k.Step a k') (ha : a ≠ .scheduler)
    (hx : x < k.nextTask) :
    (k'.tasks x).pml4 = (k.tasks x).pml4 ∧ ((k'.tasks x).state = .new → (k.tasks x).state = .new) ∧
      ((k.tasks x).state ≠ .new → (k'.tasks x).regs = (k.tasks x).regs) := by
  cases a with
  | taskCreate entryPoint isUser onHeap space =>
    obtain ⟨-, rfl⟩ := of_guard hstep
    rw [taskCreate_of_ne (Nat.ne_of_lt hx)]
    exact ⟨rfl, fun hst => hst, fun _ => rfl⟩
  | spawnJoin t rip rsp =>
    obtain ⟨⟨hrun, -, ht, hnew⟩, rfl⟩ := of_guard hstep
    have htc := ne_current_of_new hrun hnew
    rw [spawnJoin_tasks htc hnew]
    by_cases hxt : x = t
    · rw [if_pos hxt, hxt]
      refine ⟨rfl, fun hst => ?_, fun hst => absurd hnew hst⟩
      cases hst
    · rw [if_neg hxt]
      split
      · rename_i hxc
        rw [hxc]
        exact ⟨rfl, fun hst => hst, fun _ => rfl⟩
      · exact ⟨rfl, fun hst => hst, fun _ => rfl⟩
  | spawnFail t =>
    obtain ⟨-, rfl⟩ := of_guard hstep
    rw [Kernel.spawnFail]
    by_cases hxt : x = t
    · rw [hxt, setTask_self]
      refine ⟨rfl, fun hst => ?_, fun _ => rfl⟩
      cases hst
    · rw [setTask_of_ne _ hxt]
      exact ⟨rfl, fun hst => hst, fun _ => rfl⟩
  | exit code =>
    obtain ⟨-, rfl⟩ := of_guard hstep
    by_cases hcur : k.current = idle
    · rw [exitWith_idle hcur]
      by_cases hxi : x = idle
      · rw [hxi, setTask_self]
        exact ⟨rfl, fun hst => hst, fun _ => rfl⟩
      · rw [setTask_of_ne _ hxi]
        exact ⟨rfl, fun hst => hst, fun _ => rfl⟩
    · obtain ⟨h1, h2, h3⟩ := exited_context (htree.exited_exitWith hcore hcur code) x
      exact ⟨h2, h3, fun _ => h1⟩
  | waitpid pid =>
    obtain ⟨-, rfl⟩ := of_guard hstep
    rcases taskWaitpid_cases k pid with ⟨hans, -⟩ | ⟨z, hz, -, -, hans⟩ | ⟨hans, -⟩
    · rw [hans]
      exact ⟨rfl, fun hst => hst, fun _ => rfl⟩
    · rw [hans, collect_tasks (htree.not_own_child hcore hz).1]
      split
      · rename_i hxz
        rw [hxz]
        refine ⟨rfl, fun hst => ?_, fun _ => rfl⟩
        cases hst
      · split
        · rename_i hxc
          rw [hxc]
          exact ⟨rfl, fun hst => hst, fun _ => rfl⟩
        · exact ⟨rfl, fun hst => hst, fun _ => rfl⟩
    · rw [hans]
      exact ⟨rfl, fun hst => hst, fun _ => rfl⟩
  | scheduler => exact absurd rfl ha
  | entry | taskSetReady | block | sleep | wake | wakeAll | tick =>
    have hcalm := calm_of_exec hcore.idleUser hstep trivial
    refine ⟨(Task.links_inj (hcalm.links x)).2.2.2.1, fun hst => ?_, fun _ => hcalm.regs x⟩
    have hsame := hcalm.sameTree.dead x (by rw [hst]; decide)
    exact hsame.symm.trans hst

/-- **The scheduler** either goes on with the current task and leaves the frame alone, or saves the frame in the
current task, loads the registers of another one and switches to its memory. -/
theorem scheduler_context (hcore : Core k) :
    (∀ x, (k.scheduler.tasks x).pml4 = (k.tasks x).pml4 ∧
      ((k.scheduler.tasks x).state = .new → (k.tasks x).state = .new)) ∧
    k.scheduler.nextTask = k.nextTask ∧
    ((k.schedule.1 = none ∧ k.scheduler.current = k.current ∧ k.scheduler.frame = k.frame ∧
        ∀ x, (k.scheduler.tasks x).regs = (k.tasks x).regs) ∨
      ∃ n ∈ k.taskList, k.schedule.1 = some n ∧ n ≠ k.current ∧ k.scheduler.current = n ∧
        k.scheduler.frame.context = (k.tasks n).regs.context ∧
        ((k.tasks n).pml4 ≠ 0 → k.scheduler.currentPml4 = (k.scheduler.tasks n).pml4) ∧
        k.scheduler.tssRsp0 = (k.scheduler.tasks n).kernelStack ∧
        (k.scheduler.tasks k.current).regs.context = k.frame.context ∧
        ∀ x, x ≠ k.current → (k.scheduler.tasks x).regs = (k.tasks x).regs) := by
  have hlate : ∀ x, (k.scheduler.tasks x).state = .new → (k.tasks x).state = .new := by
    intro x hst
    obtain ⟨kr, hr, hcr, ⟨k', hsch, ht, -⟩ | ⟨n, k', hsch, hs, -, -, hwhy⟩⟩ := schedule_cases hcore
    · rw [Kernel.scheduler, hsch] at hst
      rw [← hr.state, ← ht.state]
      exact hst
    · rw [Kernel.scheduler, hsch] at hst
      have hsame := (hs.sameTree (hcr.chosen_alive hwhy)).dead x (by rw [hst]; decide)
      rw [← hr.state, ← hsame]
      exact hst
  obtain ⟨kr, hr, hcr, ⟨k', hsch, ht, -⟩ | ⟨n, k', hsch, hs, hnc, hnl, hwhy⟩⟩ := schedule_cases hcore
  · have hk' : k.scheduler = k' := by rw [Kernel.scheduler, hsch]
    have hone : ∀ x, ∃ ticks P, k'.tasks x = { (k.tasks x).keepChildren P with ticksRemaining := ticks } := by
      intro x
      obtain ⟨ticks, hx⟩ := ht.tasks x
      refine ⟨ticks, fun c => !decide (c ∈ k.taskList ∧ k.Doomed c ∧ (k.tasks c).siblingLinked = true), ?_⟩
      rw [hx, hr.tasks]
    rw [hk'] at hlate ⊢
    refine ⟨fun x => ⟨?_, hlate x⟩, ht.nextTask.trans hr.nextTask, .inl ⟨by rw [hsch],
      ht.current.trans hr.current, ht.frame.trans hr.frame, fun x => ?_⟩⟩
    · obtain ⟨ticks, P, hx⟩ := hone x
      rw [hx]
      rfl
    · obtain ⟨ticks, P, hx⟩ := hone x
      rw [hx]
      rfl
  · have hk' : k.scheduler = k' := by rw [Kernel.scheduler, hsch]
    have hregs : ∀ x, (kr.tasks x).regs = (k.tasks x).regs := by
      intro x
      rw [hr.tasks]
      rfl
    have hpml4 : ∀ x, (kr.tasks x).pml4 = (k.tasks x).pml4 := by
      intro x
      rw [hr.tasks]
      rfl
    have hspace : ∀ x, (k'.tasks x).pml4 = (kr.tasks x).pml4 ∧
        (k'.tasks x).kernelStack = (kr.tasks x).kernelStack := by
      intro x
      obtain ⟨-, -, -, h1, h2, -⟩ := Task.links_inj (hs.links x)
      exact ⟨h1, h2⟩
    have hcur := hr.current
    rw [hk'] at hlate ⊢
    refine ⟨fun x => ⟨(hspace x).1.trans (hpml4 x), hlate x⟩, hs.nextTask.trans hr.nextTask, .inr ⟨n, ?_, ?_, ?_,
      hs.current, ?_, ?_, ?_, ?_, ?_⟩⟩
    · exact (hr.mem.mp hnl).1
    · rw [hsch]
    · rw [← hcur]
      exact hnc
    · rw [hs.loaded, hregs]
    · intro hne
      rw [(hspace n).1]
      exact hs.pml4 (by rw [hpml4]; exact hne)
    · rw [(hspace n).2]
      exact hs.stack
    · rw [← hcur, hs.saved, hr.frame]
    · intro x hx
      rw [hs.regs x (by rw [hcur]; exact hx), hregs]

/-- A task that is switched to runs. -/
theorem running_of_switch (hcore : Core k) (hn : k.schedule.1 = some n) :
    (k.scheduler.tasks n).state = .running := by
  obtain ⟨kr, -, -, ⟨k', hsch, -⟩ | ⟨m, k', hsch, hs, -⟩⟩ := schedule_cases hcore
  · rw [hsch] at hn
    cases hn
  · rw [hsch] at hn
    rw [Kernel.scheduler, hsch, ← Option.some.inj hn]
    exact hs.next

end Kernel

open Kernel

/-- The kernel, with the trap frame of each task's last suspension. -/
structure Suspensions where
  kernel : Kernel
  suspended : ℕ → Option CpuState

namespace Suspensions

/-- The end of `kmain`: nobody was suspended yet. -/
def boot (b : BootTasks) : Suspensions := ⟨b.kmain, fun _ => none⟩

/-- A switch puts down the frame of the task it leaves. -/
def next (s : Suspensions) (k' : Kernel) : Action → Suspensions
  | .scheduler =>
      match s.kernel.schedule.1 with
      | some _ => ⟨k', Function.update s.suspended s.kernel.current (some s.kernel.frame)⟩
      | none => ⟨k', s.suspended⟩
  | _ => ⟨k', s.suspended⟩

/-- Run a step of the kernel. -/
def exec (s : Suspensions) (a : Action) : Option Suspensions := (s.kernel.exec a).map fun k' => s.next k' a

/-- The steps as a relation. -/
def Step (s : Suspensions) (a : Action) (s' : Suspensions) : Prop := s.exec a = some s'

/-- The task has run: it is current, or was suspended. -/
def Started (s : Suspensions) (x : ℕ) : Prop := x = s.kernel.current ∨ s.suspended x ≠ none

/-- What holds between steps. -/
structure Inv (s : Suspensions) : Prop where
  core : s.kernel.Core
  tree : s.kernel.Tree
  pml4 : ∀ x ∈ s.kernel.taskList, (s.kernel.tasks x).pml4 ≠ 0
  started : ∀ x, s.Started x → x < s.kernel.nextTask ∧ (s.kernel.tasks x).state ≠ .new
  saved : ∀ x f, s.suspended x = some f → x ≠ s.kernel.current → (s.kernel.tasks x).regs.context = f.context

variable {s s' : Suspensions} {k' : Kernel} {a : Action}

/-- The page table of a task that a step creates is there. -/
theorem pml4_of_exec {k : Kernel} (hcore : Core k) (htree : Tree k) (hstep : k.Step a k')
    (h : ∀ x ∈ k.taskList, (k.tasks x).pml4 ≠ 0) (ha : a ≠ .scheduler) : ∀ x ∈ k'.taskList, (k'.tasks x).pml4 ≠ 0 := by
  intro x hx
  have hold : x ∈ k.taskList → (k'.tasks x).pml4 ≠ 0 := by
    intro hxl
    rw [(context_of_exec hcore htree hstep ha (hcore.fresh x hxl)).1]
    exact h x hxl
  cases a with
  | taskCreate entryPoint isUser onHeap space =>
    obtain ⟨-, rfl⟩ := of_guard hstep
    rcases List.mem_cons.mp hx with rfl | hx
    · simp only [Kernel.taskCreate, Function.update_self]
      exact space.pml4_ne
    · exact hold hx
  | scheduler => exact absurd rfl ha
  | _ =>
    rw [(tame_of_exec hcore hstep (by simp) (by simp)).taskList] at hx
    exact hold hx

/-- A step that is not a call of the scheduler switches no task. -/
theorem current_of_exec {k : Kernel} (hcore : Core k) (hstep : k.Step a k') (ha : a ≠ .scheduler) :
    k'.current = k.current ∧ k.nextTask ≤ k'.nextTask := by
  cases a with
  | taskCreate entryPoint isUser onHeap space =>
    obtain ⟨-, rfl⟩ := of_guard hstep
    exact ⟨rfl, Nat.le_succ _⟩
  | scheduler => exact absurd rfl ha
  | _ =>
    have ht := tame_of_exec hcore hstep (by simp) (by simp)
    exact ⟨ht.current, Nat.le_of_eq ht.nextTask.symm⟩

theorem Inv.kernelStep (h : Inv s) (hstep : s.kernel.Step a k') (ha : a ≠ .scheduler) :
    Inv ⟨k', s.suspended⟩ := by
  obtain ⟨hcur, hnext⟩ := current_of_exec h.core hstep ha
  have hkept : ∀ x, s.Started x → (k'.tasks x).state ≠ .new ∧ (k'.tasks x).regs = (s.kernel.tasks x).regs := by
    intro x hx
    obtain ⟨hlt, hnew⟩ := h.started x hx
    obtain ⟨-, h1, h2⟩ := context_of_exec h.core h.tree hstep ha hlt
    exact ⟨fun hst => hnew (h1 hst), h2 hnew⟩
  refine ⟨h.core.exec hstep, h.tree.exec h.core hstep, pml4_of_exec h.core h.tree hstep h.pml4 ha,
    fun x hx => ?_, fun x f hf hxc => ?_⟩
  · have hx' : s.Started x := by
      rcases hx with hx | hx
      · exact .inl (hx.trans hcur)
      · exact .inr hx
    exact ⟨Nat.lt_of_lt_of_le (h.started x hx').1 hnext, (hkept x hx').1⟩
  · rw [show k'.current = s.kernel.current from hcur] at hxc
    have hsome : s.suspended x ≠ none := by
      rw [show s.suspended x = some f from hf]
      simp
    rw [(hkept x (.inr hsome)).2]
    exact h.saved x f hf hxc

theorem Inv.scheduler (h : Inv s) : Inv (s.next s.kernel.scheduler .scheduler) := by
  have hstep : s.kernel.Step .scheduler s.kernel.scheduler := rfl
  have hcore := h.core.exec hstep
  have htree := h.tree.exec h.core hstep
  obtain ⟨hall, hnext, hcases⟩ := scheduler_context h.core
  have hpml4 : ∀ x ∈ s.kernel.scheduler.taskList, (s.kernel.scheduler.tasks x).pml4 ≠ 0 := by
    intro x hx
    rw [(hall x).1]
    exact h.pml4 x (mem_of_scheduler h.core hx)
  have hlate : ∀ x, s.Started x →
      x < s.kernel.scheduler.nextTask ∧ (s.kernel.scheduler.tasks x).state ≠ .new := by
    intro x hx
    obtain ⟨hlt, hnew⟩ := h.started x hx
    rw [hnext]
    exact ⟨hlt, fun hst => hnew ((hall x).2 hst)⟩
  rw [next]
  rcases hcases with ⟨hnone, hcur, -, hregs⟩ | ⟨n, hnl, hsome, hnc, hcur, -, -, -, hsaved, hregs⟩
  · rw [hnone]
    refine ⟨hcore, htree, hpml4, fun x hx => hlate x ?_, fun x f hf hxc => ?_⟩
    · rcases hx with hx | hx
      · exact .inl (hx.trans hcur)
      · exact .inr hx
    · rw [show s.kernel.scheduler.current = s.kernel.current from hcur] at hxc
      rw [hregs x]
      exact h.saved x f hf hxc
  · rw [hsome]
    simp only []
    refine ⟨hcore, htree, hpml4, fun x hx => ?_, fun x f hf hxc => ?_⟩
    · by_cases hxn : x = n
      · -- the task that starts is on the list, and runs
        rw [hxn]
        have hmem : n ∈ s.kernel.scheduler.taskList := by
          have hmem := hcore.current_mem
          rw [hcur] at hmem
          exact hmem
        refine ⟨hcore.fresh n hmem, fun hst => ?_⟩
        have hrun := running_of_switch h.core hsome
        rw [hrun] at hst
        cases hst
      · apply hlate x
        rcases hx with hx | hx
        · exact absurd (hx.trans hcur) hxn
        · by_cases hxc : x = s.kernel.current
          · exact .inl hxc
          · simp only [Function.update_of_ne hxc] at hx
            exact .inr hx
    · simp only at hf hxc ⊢
      by_cases hold : x = s.kernel.current
      · rw [hold, Function.update_self] at hf
        rw [hold, hsaved, Option.some.inj hf]
      · rw [Function.update_of_ne hold] at hf
        rw [hregs x hold]
        exact h.saved x f hf hold

/-- **Every step** keeps what was put down. -/
theorem Inv.step (h : Inv s) (hstep : s.Step a s') : Inv s' := by
  obtain ⟨k', hexec, rfl⟩ := Option.map_eq_some_iff.mp hstep
  cases a with
  | scheduler =>
    obtain rfl := Option.some.inj hexec
    exact h.scheduler
  | _ => exact h.kernelStep hexec (by simp)

theorem inv_boot (b : BootTasks) : Inv (boot b) where
  core := core_kmain b
  tree := tree_kmain b
  pml4 := by
    intro x hx
    have hx' : x ∈ b.kmain.taskList := hx
    rw [b.kmain_taskList] at hx'
    rcases List.mem_cons.mp hx' with rfl | hx'
    · exact b.initSpace.pml4_ne
    · rw [List.mem_singleton.mp hx']
      exact b.idleSpace.pml4_ne
  started := by
    intro x hx
    rcases hx with rfl | hx
    · exact ⟨Nat.zero_lt_two, fun hst => by cases hst⟩
    · exact absurd rfl hx
  saved := fun x f hf => by cases hf

end Suspensions

/-- **Context isolation.**  In every run, when the scheduler switches to a task that was suspended before, the frame
it leaves for `iretq` is the one of that suspension, up to the vector and error code of the interrupt; the page
table and the kernel stack are those of the task; and when it does not switch, it leaves the frame alone. -/
theorem context_isolated (b : BootTasks) {s : Suspensions} (h : Reaches Suspensions.Step (.boot b) s) :
    (s.kernel.schedule.1 = none → s.kernel.scheduler.frame = s.kernel.frame) ∧
    ∀ n, s.kernel.schedule.1 = some n →
      (∀ f, s.suspended n = some f → s.kernel.scheduler.frame.context = f.context) ∧
      s.kernel.scheduler.currentPml4 = (s.kernel.scheduler.tasks n).pml4 ∧
      s.kernel.scheduler.tssRsp0 = (s.kernel.scheduler.tasks n).kernelStack := by
  have hinv : s.Inv := h.invariant (Suspensions.inv_boot b) fun _ _ _ hi hstep => hi.step hstep
  obtain ⟨-, -, hcases⟩ := scheduler_context hinv.core
  rcases hcases with ⟨hnone, -, hframe, -⟩ | ⟨m, hml, hsome, hmc, -, hloaded, hpml4, hstack, -⟩
  · refine ⟨fun _ => hframe, fun n hn => ?_⟩
    rw [hnone] at hn
    cases hn
  · refine ⟨fun hnone => ?_, fun n hn => ?_⟩
    · rw [hsome] at hnone
      cases hnone
    · obtain rfl : m = n := Option.some.inj (hsome.symm.trans hn)
      refine ⟨fun f hf => ?_, hpml4 (hinv.pml4 m hml), hstack⟩
      rw [hloaded]
      exact hinv.saved m f hf hmc

/-- The timer interrupts `idle` and `init` runs; then `init` blocks. -/
def idleSuspended : List Action :=
  [.entry { CpuState.zero with rax := 3, rip := 0x100 }, .scheduler, .entry { CpuState.zero with rax := 7 },
    .block .child]

/-- `idle` gets back the registers it was interrupted with, not those of `init`. -/
theorem context_isolated_idleSuspended :
    (runLast Suspensions.exec (.boot sampleBoot) idleSuspended).kernel.schedule.1 = some idle ∧
      (runLast Suspensions.exec (.boot sampleBoot) idleSuspended).kernel.scheduler.frame.context =
        { CpuState.zero with rax := 3, rip := 0x100 } := by
  have hreach : Reaches Suspensions.Step (.boot sampleBoot)
      (runLast Suspensions.exec (.boot sampleBoot) idleSuspended) :=
    (trace_runLast (by decide)).reaches .start
  have hidle : (runLast Suspensions.exec (.boot sampleBoot) idleSuspended).kernel.schedule.1 = some idle := by
    decide
  obtain ⟨-, hswitch⟩ := context_isolated sampleBoot hreach
  exact ⟨hidle, (hswitch idle hidle).1 { CpuState.zero with rax := 3, rip := 0x100 } (by decide)⟩

end LizardOs.Sched
