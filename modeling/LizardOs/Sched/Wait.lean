import LizardOs.Sched.ProcessTree

/-!
# Waiting for children

A record of who spawned whom, who exited with which code, and whose code was collected grows along a run.  While a
task has not exited, its list of children holds exactly the tasks it spawned and has not collected yet; a zombie
holds the code it exited with.  So `task_waitpid` hands each exit over once, to the task that spawned the child,
and nothing is freed before.
-/

namespace LizardOs.Sched

open LizardOs.Lib Kernel

/-- The kernel with the record of its run. -/
structure Recorded where
  kernel : Kernel
  spawned : List (ℕ × ℕ)
  exits : List (ℕ × ℤ)
  collected : List ℕ

namespace Kernel

/-- The child that a pass of `task_waitpid` collects. -/
def firstZombie (k : Kernel) (pid : ℤ) : Option ℕ :=
  k.me.children.find? fun c => decide (k.Matches pid c ∧ (k.tasks c).state = .zombie)

theorem scan_eq_firstZombie (k : Kernel) (pid : ℤ) :
    (k.scanChildren pid k.me.children 0).2 = k.firstZombie pid :=
  (scanChildren_spec k pid k.me.children 0).1

theorem of_firstZombie {k : Kernel} {pid : ℤ} {z : ℕ} (h : k.firstZombie pid = some z) :
    z ∈ k.me.children ∧ k.Matches pid z ∧ (k.tasks z).state = .zombie := by
  rw [firstZombie] at h
  have hboth := List.find?_some h
  exact ⟨List.mem_of_find?_eq_some h, of_decide_eq_true hboth⟩

/-- **A pass of `task_waitpid`** in one equation. -/
theorem taskWaitpid_eq (k : Kernel) (pid : ℤ) :
    k.taskWaitpid pid =
      match k.firstZombie pid with
      | some z => (.answer (toInt (k.tasks z).pid) (some (k.tasks z).exitCode), k.collect z)
      | none =>
          if ∃ c ∈ k.me.children, k.Matches pid c then (.block, k) else (.answer (-ECHILD) none, k) := by
  obtain ⟨hz, -, hfound⟩ := scanChildren_spec k pid k.me.children 0
  rw [taskWaitpid, firstZombie, ← hz]
  generalize hscan : k.scanChildren pid k.me.children 0 = scan at hz hfound ⊢
  obtain ⟨found, zombie⟩ := scan
  cases found with
  | zero =>
    have hnone := hfound.mp rfl
    have hno : zombie = none := by
      rw [show zombie = _ from hz, List.find?_eq_none]
      intro c hc hm
      exact hnone c hc (of_decide_eq_true hm).1
    rw [hno]
    simp only []
    rw [if_neg]
    rintro ⟨c, hc, hm⟩
    exact hnone c hc hm
  | succ found =>
    cases zombie with
    | some z => rfl
    | none =>
      simp only []
      rw [if_pos]
      by_contra hno
      have := hfound.mpr fun c hc hm => hno ⟨c, hc, hm⟩
      cases this

end Kernel

namespace Recorded

/-- What a step adds to the record: the parent and the child of a spawn, the task and the code of an exit, the
child that a pass of `task_waitpid` collects. -/
def record (r : Recorded) (k' : Kernel) : Action → Recorded
  | .spawnJoin t _ _ => { r with kernel := k', spawned := (r.kernel.current, t) :: r.spawned }
  | .exit code =>
      if r.kernel.current = idle then { r with kernel := k' }
      else { r with kernel := k', exits := (r.kernel.current, code) :: r.exits }
  | .waitpid pid =>
      match (r.kernel.scanChildren pid r.kernel.me.children 0).2 with
      | some z => { r with kernel := k', collected := z :: r.collected }
      | none => { r with kernel := k' }
  | _ => { r with kernel := k' }

/-- A step of the kernel, recorded. -/
def Step (r : Recorded) (a : Action) (r' : Recorded) : Prop :=
  ∃ k', r.kernel.Step a k' ∧ r' = r.record k' a

/-- The end of `kmain`. -/
def boot (b : BootTasks) : Recorded := ⟨b.kmain, [], [], []⟩

theorem record_kernel (r : Recorded) (k' : Kernel) (a : Action) : (r.record k' a).kernel = k' := by
  cases a with
  | exit code =>
    rw [record]
    split <;> rfl
  | waitpid pid =>
    rw [record]
    split <;> rfl
  | _ => rfl

/-- The task has exited. -/
def HasExited (r : Recorded) (p : ℕ) : Prop := ∃ code, (p, code) ∈ r.exits

/-- The record and the tree agree. -/
structure Agrees (k : Kernel) (r : Recorded) : Prop where
  spawnOld : ∀ p c, (p, c) ∈ r.spawned → p ≠ idle
  pending : ∀ p c, (p, c) ∈ r.spawned →
    r.HasExited p ∨ c ∈ r.collected ∨ (c ∈ k.taskList ∧ (k.tasks c).parent = some p)
  child : ∀ p ∈ k.taskList, p ≠ idle → ∀ c ∈ (k.tasks p).children,
    (p, c) ∈ r.spawned ∧ c ∉ r.collected
  zombie : ∀ c ∈ k.taskList, (k.tasks c).state = .zombie → (c, (k.tasks c).exitCode) ∈ r.exits
  exitDead : ∀ c code, (c, code) ∈ r.exits → c < k.nextTask ∧
    (c ∈ k.taskList → (k.tasks c).state ∈ [TaskState.zombie, .terminated])
  exitOnce : (r.exits.map Prod.fst).Nodup
  collectedDead : ∀ c ∈ r.collected, c < k.nextTask ∧ (c ∈ k.taskList → (k.tasks c).state = .terminated)
  collectedOnce : r.collected.Nodup

variable {k k' : Kernel} {r : Recorded} {t c n p : ℕ}

/-- The record does not depend on the kernel kept beside it. -/
theorem Agrees.moved (h : Agrees k r) : Agrees k { r with kernel := k' } :=
  ⟨h.spawnOld, h.pending, h.child, h.zombie, h.exitDead, h.exitOnce, h.collectedDead, h.collectedOnce⟩

/-- The record only looks at the lists, the links and who is dead. -/
theorem Agrees.same (h : Agrees k r) (hs : SameTree k k') : Agrees k' r where
  spawnOld := h.spawnOld
  pending := by
    rw [hs.taskList]
    intro p c hpc
    rw [hs.parent]
    exact h.pending p c hpc
  child := by
    rw [hs.taskList]
    intro p hp hpi c hc
    rw [hs.children] at hc
    exact h.child p hp hpi c hc
  zombie := by
    rw [hs.taskList]
    intro c hc hz
    have hz' := hs.dead c (by rw [hz]; decide)
    rw [(Task.links_inj (hs.links c)).2.1]
    exact h.zombie c hc (hz'.symm.trans hz)
  exitDead := by
    rw [hs.taskList, hs.nextTask]
    intro c code hc
    refine ⟨(h.exitDead c code hc).1, fun hl => ?_⟩
    have hdead := (h.exitDead c code hc).2 hl
    rw [hs.stays c hdead]
    exact hdead
  exitOnce := h.exitOnce
  collectedDead := by
    rw [hs.taskList, hs.nextTask]
    intro c hc
    refine ⟨(h.collectedDead c hc).1, fun hl => ?_⟩
    have hdead := (h.collectedDead c hc).2 hl
    rw [hs.stays c (by rw [hdead]; decide)]
    exact hdead
  collectedOnce := h.collectedOnce

theorem Agrees.taskCreate (h : Agrees k r) (hcore : Core k) (entryPoint : ℕ) (isUser onHeap : Bool)
    (space : AddrSpace) : Agrees (k.taskCreate entryPoint isUser onHeap space) r := by
  set k' := k.taskCreate entryPoint isUser onHeap space with hk'
  have hold : ∀ x ∈ k.taskList, k'.tasks x = k.tasks x := by
    intro x hx
    exact taskCreate_of_ne (fun hxn => hcore.nextTask_not_mem (hxn ▸ hx)) ..
  have hnew : (k'.tasks k.nextTask).children = [] ∧ (k'.tasks k.nextTask).state = .new := by
    rw [hk']
    simp only [Kernel.taskCreate, Function.update_self, and_self]
  have hmem : ∀ x, x ∈ k'.taskList ↔ x = k.nextTask ∨ x ∈ k.taskList := fun x => List.mem_cons
  have hlt : ∀ x, x < k.nextTask → x < k'.nextTask := fun x hx => Nat.lt_succ_of_lt hx
  refine ⟨h.spawnOld, fun p c hpc => ?_, fun p hp hpi c hc => ?_, fun c hc hz => ?_, fun c code hc => ?_,
    h.exitOnce, fun c hc => ?_, h.collectedOnce⟩
  · rcases h.pending p c hpc with he | hcol | ⟨hl, hpar⟩
    · exact .inl he
    · exact .inr (.inl hcol)
    · exact .inr (.inr ⟨(hmem c).mpr (.inr hl), by rw [hold c hl]; exact hpar⟩)
  · rcases (hmem p).mp hp with rfl | hp
    · rw [hnew.1] at hc
      cases hc
    · rw [hold p hp] at hc
      exact h.child p hp hpi c hc
  · rcases (hmem c).mp hc with rfl | hc
    · exact absurd (hnew.2.symm.trans hz) (by decide)
    · rw [hold c hc] at hz ⊢
      exact h.zombie c hc hz
  · obtain ⟨h1, h2⟩ := h.exitDead c code hc
    refine ⟨hlt c h1, fun hl => ?_⟩
    rcases (hmem c).mp hl with rfl | hl
    · exact absurd h1 (Nat.lt_irrefl _)
    · rw [hold c hl]
      exact h2 hl
  · obtain ⟨h1, h2⟩ := h.collectedDead c hc
    refine ⟨hlt c h1, fun hl => ?_⟩
    rcases (hmem c).mp hl with rfl | hl
    · exact absurd h1 (Nat.lt_irrefl _)
    · rw [hold c hl]
      exact h2 hl

theorem Agrees.reaped (h : Agrees k r) (htree : Tree k) (hr : Reaped k k' k.taskList) : Agrees k' r := by
  have hmem : ∀ x, x ∈ k'.taskList → x ∈ k.taskList := fun x hx => (hr.mem.mp hx).1
  have hchild : ∀ p c, c ∈ (k'.tasks p).children → c ∈ (k.tasks p).children := by
    intro p c hc
    rw [hr.tasks, Task.keepChildren] at hc
    exact List.mem_of_mem_filter hc
  have hexit : ∀ x, (k'.tasks x).exitCode = (k.tasks x).exitCode := by
    intro x
    rw [hr.tasks]
    rfl
  refine ⟨h.spawnOld, fun p c hpc => ?_, fun p hp hpi c hc => ?_, fun c hc hz => ?_, fun c code hc => ?_,
    h.exitOnce, fun c hc => ?_, h.collectedOnce⟩
  · rcases h.pending p c hpc with he | hcol | ⟨hl, hpar⟩
    · exact .inl he
    · exact .inr (.inl hcol)
    · -- a child of a task that may still wait is not dead, so it is not reaped
      refine .inr (.inr ⟨hr.mem.mpr ⟨hl, fun hd => ?_⟩, ?_⟩)
      · rcases (htree.lawful c hl).terminated hd.2.2.2 with hnone | hidle
        · rw [hpar] at hnone
          cases hnone
        · rw [hpar] at hidle
          exact h.spawnOld p c hpc (Option.some.inj hidle)
      · rw [hr.tasks]
        exact hpar
  · exact h.child p (hmem p hp) hpi c (hchild p c hc)
  · rw [hr.state] at hz
    rw [hexit]
    exact h.zombie c (hmem c hc) hz
  · rw [hr.nextTask, hr.state]
    obtain ⟨h1, h2⟩ := h.exitDead c code hc
    exact ⟨h1, fun hl => h2 (hmem c hl)⟩
  · rw [hr.nextTask, hr.state]
    obtain ⟨h1, h2⟩ := h.collectedDead c hc
    exact ⟨h1, fun hl => h2 (hmem c hl)⟩

/-- A task that is new is in no record of the dead. -/
theorem Agrees.of_new (h : Agrees k r) (ht : t ∈ k.taskList) (hnew : (k.tasks t).state = .new) :
    t ∉ r.collected ∧ ¬r.HasExited t := by
  refine ⟨fun hc => ?_, fun ⟨code, hc⟩ => ?_⟩
  · have hst := (h.collectedDead t hc).2 ht
    rw [hnew] at hst
    cases hst
  · have hst := (h.exitDead t code hc).2 ht
    rw [hnew] at hst
    exact absurd hst (by decide)

theorem Agrees.spawnJoin (h : Agrees k r) (hcore : Core k) (htree : Tree k) (hrun : k.me.state = .running)
    (hcur : k.current ≠ idle) (ht : t ∈ k.taskList) (hnew : (k.tasks t).state = .new) (rip rsp : ℕ) :
    Agrees (k.spawnJoin t rip rsp).2
      { r with kernel := (k.spawnJoin t rip rsp).2, spawned := (k.current, t) :: r.spawned } := by
  have htc := ne_current_of_new hrun hnew
  have hrest := spawnJoin_rest k t rip rsp
  have hparent := spawnJoin_parent htc hnew rip rsp
  have hchildren := spawnJoin_children htc hnew rip rsp
  have hstate := spawnJoin_state htc hnew rip rsp
  obtain ⟨hfresh, hlive⟩ := h.of_new ht hnew
  have hbare := (htree.lawful t ht).newborn hnew
  generalize (k.spawnJoin t rip rsp).2 = k' at hrest hparent hchildren hstate ⊢
  have hkept : ∀ x ∈ k.taskList, x ∈ r.collected ∨ r.HasExited x → (k'.tasks x).state = (k.tasks x).state := by
    intro x _ hx
    rw [(hstate x).1, if_neg]
    intro hxt
    rw [hxt] at hx
    exact hx.elim hfresh hlive
  refine ⟨fun p c hpc => ?_, fun p c hpc => ?_, fun p hp hpi c hc => ?_, fun c hc hz => ?_, fun c code hc => ?_,
    h.exitOnce, fun c hc => ?_, h.collectedOnce⟩
  · rcases List.mem_cons.mp hpc with heq | hpc
    · rw [(Prod.mk.inj heq).1]
      exact hcur
    · exact h.spawnOld p c hpc
  · rw [hrest.taskList, hparent]
    rcases List.mem_cons.mp hpc with heq | hpc
    · obtain ⟨rfl, rfl⟩ := Prod.mk.inj heq
      exact .inr (.inr ⟨ht, if_pos rfl⟩)
    · rcases h.pending p c hpc with he | hcol | ⟨hl, hpar⟩
      · exact .inl he
      · exact .inr (.inl hcol)
      · have hct : c ≠ t := by
          intro hct
          rw [hct, hbare] at hpar
          cases hpar
        rw [if_neg hct]
        exact .inr (.inr ⟨hl, hpar⟩)
  · rw [hrest.taskList] at hp
    rw [hchildren] at hc
    split at hc
    · rename_i hpc
      rw [hpc]
      rcases List.mem_append.mp hc with hc | hc
      · obtain ⟨h1, h2⟩ := h.child k.current hcore.current_mem hcur c hc
        exact ⟨List.mem_cons_of_mem _ h1, h2⟩
      · rw [List.mem_singleton.mp hc]
        exact ⟨List.mem_cons_self, hfresh⟩
    · obtain ⟨h1, h2⟩ := h.child p hp hpi c hc
      exact ⟨List.mem_cons_of_mem _ h1, h2⟩
  · rw [hrest.taskList] at hc
    rw [(hstate c).1] at hz
    rw [(hstate c).2]
    split at hz
    · cases hz
    · exact h.zombie c hc hz
  · rw [hrest.nextTask, hrest.taskList]
    obtain ⟨h1, h2⟩ := h.exitDead c code hc
    refine ⟨h1, fun hl => ?_⟩
    rw [hkept c hl (.inr ⟨code, hc⟩)]
    exact h2 hl
  · rw [hrest.nextTask, hrest.taskList]
    obtain ⟨h1, h2⟩ := h.collectedDead c hc
    refine ⟨h1, fun hl => ?_⟩
    rw [hkept c hl (.inl hc)]
    exact h2 hl

theorem Agrees.spawnFail (h : Agrees k r) (ht : t ∈ k.taskList) (hnew : (k.tasks t).state = .new) :
    Agrees (k.spawnFail t).2 r := by
  obtain ⟨hfresh, hlive⟩ := h.of_new ht hnew
  set k' := (k.spawnFail t).2 with hk'
  have hself : k'.tasks t = { k.tasks t with state := .terminated } := by
    rw [hk', Kernel.spawnFail, setTask_self]
  have hother : ∀ x, x ≠ t → k'.tasks x = k.tasks x := by
    intro x hx
    rw [hk', Kernel.spawnFail, setTask_of_ne _ hx]
  have hlinks : ∀ x, (k'.tasks x).links = (k.tasks x).links := by
    intro x
    by_cases hxt : x = t
    · rw [hxt, hself]
      rfl
    · rw [hother x hxt]
  have hkept : ∀ x, x ∈ r.collected ∨ r.HasExited x → k'.tasks x = k.tasks x := by
    intro x hx
    apply hother
    intro hxt
    rw [hxt] at hx
    exact hx.elim hfresh hlive
  refine ⟨h.spawnOld, fun p c hpc => ?_, fun p hp hpi c hc => ?_, fun c hc hz => ?_, fun c code hc => ?_,
    h.exitOnce, fun c hc => ?_, h.collectedOnce⟩
  · rw [(Task.links_inj (hlinks c)).2.2.2.2.2.1]
    exact h.pending p c hpc
  · rw [(Task.links_inj (hlinks p)).2.2.2.2.2.2.1] at hc
    exact h.child p hp hpi c hc
  · have hct : c ≠ t := by
      intro hct
      rw [hct, hself] at hz
      cases hz
    rw [hother c hct] at hz ⊢
    exact h.zombie c hc hz
  · rw [hkept c (.inr ⟨code, hc⟩)]
    exact h.exitDead c code hc
  · rw [hkept c (.inl hc)]
    exact h.collectedDead c hc

theorem Agrees.collect {z : ℕ} (h : Agrees k r) (hcore : Core k) (htree : Tree k) (hcur : k.current ≠ idle)
    (hrun : k.me.state = .running) (hz : z ∈ k.me.children) (hzombie : (k.tasks z).state = .zombie) :
    Agrees (k.collect z) { r with kernel := k.collect z, collected := z :: r.collected } := by
  obtain ⟨hzl, hzp⟩ := htree.child k.current hcore.current_mem z hz
  have hzc : z ≠ k.current := by
    intro hzc
    have hme : (k.tasks k.current).state = .running := hrun
    rw [hzc, hme] at hzombie
    cases hzombie
  have hrest := collect_rest k z
  have hparent := collect_parent hzc
  have hchildren := collect_children hzc
  have hstate := collect_state hzc
  generalize k.collect z = k' at hrest hparent hchildren hstate ⊢
  refine ⟨h.spawnOld, fun p c hpc => ?_, fun p hp hpi c hc => ?_, fun c hc hzc => ?_, fun c code hc => ?_,
    h.exitOnce, fun c hc => ?_, ?_⟩
  · rw [hrest.taskList, hparent]
    rcases h.pending p c hpc with he | hcol | ⟨hl, hpar⟩
    · exact .inl he
    · exact .inr (.inl (List.mem_cons_of_mem _ hcol))
    · by_cases hcz : c = z
      · rw [hcz]
        exact .inr (.inl List.mem_cons_self)
      · rw [if_neg hcz]
        exact .inr (.inr ⟨hl, hpar⟩)
  · rw [hrest.taskList] at hp
    rw [hchildren] at hc
    have hold : c ∈ (k.tasks p).children ∧ c ≠ z := by
      split at hc
      · rename_i hpc
        rw [hpc]
        exact mem_listDel.mp hc
      · rename_i hpc
        refine ⟨hc, fun hcz => ?_⟩
        have hpar := (htree.child p hp c hc).2
        rw [hcz, hzp] at hpar
        exact hpc (Option.some.inj hpar).symm
    obtain ⟨h1, h2⟩ := h.child p hp hpi c hold.1
    refine ⟨h1, fun hcol => ?_⟩
    rcases List.mem_cons.mp hcol with hcz | hcol
    · exact hold.2 hcz
    · exact h2 hcol
  · rw [hrest.taskList] at hc
    rw [(hstate c).1] at hzc
    rw [(hstate c).2]
    split at hzc
    · cases hzc
    · exact h.zombie c hc hzc
  · rw [hrest.nextTask, hrest.taskList, (hstate c).1]
    obtain ⟨h1, h2⟩ := h.exitDead c code hc
    refine ⟨h1, fun hl => ?_⟩
    split
    · decide
    · exact h2 hl
  · rw [hrest.nextTask, hrest.taskList, (hstate c).1]
    rcases List.mem_cons.mp hc with rfl | hc
    · exact ⟨hcore.fresh c hzl, fun _ => if_pos rfl⟩
    · obtain ⟨h1, h2⟩ := h.collectedDead c hc
      refine ⟨h1, fun hl => ?_⟩
      split
      · rfl
      · exact h2 hl
  · exact List.nodup_cons.mpr ⟨(h.child k.current hcore.current_mem hcur z hz).2, h.collectedOnce⟩

/-- A parent that was not a zombie does not become one when its child exits, and keeps its exit code. -/
theorem childExited_state {t : Task} :
    (t.childExited.state ∈ [TaskState.zombie, .terminated] ∨ t.state ∈ [TaskState.zombie, .terminated] →
      t.childExited.state = t.state) ∧ t.childExited.exitCode = t.exitCode := by
  rw [Task.childExited]
  split
  · rename_i hw
    refine ⟨fun hst => ?_, rfl⟩
    rw [hw.1] at hst
    exact absurd hst (by simp [Task.woken])
  · exact ⟨fun _ => rfl, rfl⟩

/-- What an exit does to the other tasks: no new zombie, and a zombie at most loses the chance to be waited for. -/
theorem exited_other {code : ℤ} (he : Exited k k' code) {x : ℕ} (hx : x ≠ k.current) :
    (k'.tasks x).exitCode = (k.tasks x).exitCode ∧
      ((k'.tasks x).state = .zombie → (k.tasks x).state = .zombie) ∧
      ((k.tasks x).state = .terminated → (k'.tasks x).state = .terminated) ∧
      ((k.tasks x).state = .zombie → (k'.tasks x).state ∈ [TaskState.zombie, .terminated]) := by
  by_cases hxi : x = idle
  · rw [hxi, he.idle]
    refine ⟨rfl, fun hz => hz, fun ht => ht, fun hz => ?_⟩
    rw [hz]
    decide
  have hbase : ∀ t : Task, t = (if x ∈ k.me.children then (k.tasks x).orphaned else k.tasks x) →
      t.exitCode = (k.tasks x).exitCode ∧ (t.state = .zombie → (k.tasks x).state = .zombie) ∧
      ((k.tasks x).state = .terminated → t.state = .terminated) ∧
      ((k.tasks x).state = .zombie → t.state ∈ [TaskState.zombie, .terminated]) := by
    intro t ht
    rw [ht]
    split
    · simp only [Task.orphaned, true_and]
      split
      · rename_i hz
        exact ⟨fun _ => hz, fun _ => rfl, fun _ => by decide⟩
      · rename_i hz
        exact ⟨fun h => absurd h hz, fun h => h, fun h => absurd h hz⟩
    · refine ⟨rfl, fun hz => hz, fun ht => ht, fun hz => ?_⟩
      rw [hz]
      decide
  by_cases hp : k.me.parent = some x
  · rw [he.parent x hx hxi hp]
    obtain ⟨h1, h2, h3, h4⟩ := hbase _ rfl
    generalize (if x ∈ k.me.children then (k.tasks x).orphaned else k.tasks x) = t at h1 h2 h3 h4 ⊢
    obtain ⟨hst, hcode⟩ := childExited_state (t := t)
    refine ⟨hcode.trans h1, fun hz => ?_, fun hz => ?_, fun hz => ?_⟩
    · have hsame := hst (.inl (by rw [hz]; decide))
      exact h2 (hsame ▸ hz)
    · have hsame := hst (.inr (by rw [h3 hz]; decide))
      rw [hsame]
      exact h3 hz
    · have hsame := hst (.inr (h4 hz))
      rw [hsame]
      exact h4 hz
  · rw [he.others x hx hxi hp]
    exact hbase _ rfl

theorem Agrees.exited {code : ℤ} (h : Agrees k r) (hcore : Core k) (htree : Tree k)
    (hrun : k.me.state = .running) (he : Exited k k' code) :
    Agrees k' { r with kernel := k', exits := (k.current, code) :: r.exits } := by
  have hcl := hcore.current_mem
  have hlive : ¬r.HasExited k.current := by
    intro ⟨code', hc⟩
    have hst := (h.exitDead k.current code' hc).2 hcl
    rw [show (k.tasks k.current).state = .running from hrun] at hst
    exact absurd hst (by decide)
  have hlink := he.links htree hcore
  have hme : (k'.tasks k.current).state ∈ [TaskState.zombie, .terminated] := by
    rw [he.me]
    simp only []
    split
    · decide
    · decide
  refine ⟨h.spawnOld, fun p c hpc => ?_, fun p hp hpi c hc => ?_, fun c hc hz => ?_, fun c code' hc => ?_,
    ?_, fun c hc => ?_, h.collectedOnce⟩
  · rcases h.pending p c hpc with ⟨code', hx⟩ | hcol | ⟨hl, hpar⟩
    · exact .inl ⟨code', List.mem_cons_of_mem _ hx⟩
    · exact .inr (.inl hcol)
    · by_cases hpc' : p = k.current
      · rw [hpc']
        exact .inl ⟨code, List.mem_cons_self⟩
      · have hnot : c ∉ k.me.children := by
          intro hcm
          rw [(htree.child k.current hcl c hcm).2] at hpar
          exact hpc' (Option.some.inj hpar).symm
        rw [he.rest.taskList, (hlink c).1, if_neg hnot]
        exact .inr (.inr ⟨hl, hpar⟩)
  · rw [he.rest.taskList] at hp
    rw [(hlink p).2] at hc
    split at hc
    · cases hc
    · exact h.child p hp hpi c hc
  · rw [he.rest.taskList] at hc
    by_cases hcc : c = k.current
    · rw [hcc, he.me]
      exact List.mem_cons_self
    · obtain ⟨h1, h2, -⟩ := exited_other he hcc
      rw [h1]
      exact List.mem_cons_of_mem _ (h.zombie c hc (h2 hz))
  · rw [he.rest.taskList, he.rest.nextTask]
    rcases List.mem_cons.mp hc with heq | hc
    · rw [(Prod.mk.inj heq).1]
      exact ⟨hcore.fresh _ hcl, fun _ => hme⟩
    · obtain ⟨h1, h2⟩ := h.exitDead c code' hc
      refine ⟨h1, fun hl => ?_⟩
      have hcc : c ≠ k.current := fun hcc => hlive ⟨code', hcc ▸ hc⟩
      obtain ⟨-, -, h3, h4⟩ := exited_other he hcc
      rcases List.mem_cons.mp (h2 hl) with hst | hst
      · exact h4 hst
      · rw [h3 (List.mem_singleton.mp hst)]
        decide
  · refine List.nodup_cons.mpr ⟨fun hmem => ?_, h.exitOnce⟩
    obtain ⟨⟨c, code'⟩, hc, heq⟩ := List.mem_map.mp hmem
    exact hlive ⟨code', (show c = k.current from heq) ▸ hc⟩
  · rw [he.rest.taskList, he.rest.nextTask]
    obtain ⟨h1, h2⟩ := h.collectedDead c hc
    refine ⟨h1, fun hl => ?_⟩
    have hcc : c ≠ k.current := by
      intro hcc
      have hst := h2 hl
      rw [hcc, show (k.tasks k.current).state = .running from hrun] at hst
      cases hst
    exact (exited_other he hcc).2.2.1 (h2 hl)

theorem Agrees.exitIdle (h : Agrees k r) (hcore : Core k) (code : ℤ) :
    Agrees (k.setTask idle fun t => { t with exitCode := code }) r := by
  set k' := k.setTask idle fun t => { t with exitCode := code } with hk'
  have hother : ∀ x, x ≠ idle → k'.tasks x = k.tasks x := fun x hx => setTask_of_ne _ hx
  have hidle : k'.tasks idle = { k.tasks idle with exitCode := code } := setTask_self ..
  have hsame : ∀ x, (k'.tasks x).state = (k.tasks x).state ∧ (k'.tasks x).parent = (k.tasks x).parent := by
    intro x
    by_cases hxi : x = idle
    · rw [hxi, hidle]
      exact ⟨rfl, rfl⟩
    · rw [hother x hxi]
      exact ⟨rfl, rfl⟩
  refine ⟨h.spawnOld, fun p c hpc => ?_, fun p hp hpi c hc => ?_, fun c hc hz => ?_, fun c code hc => ?_,
    h.exitOnce, fun c hc => ?_, h.collectedOnce⟩
  · rw [(hsame c).2]
    exact h.pending p c hpc
  · rw [hother p hpi] at hc
    exact h.child p hp hpi c hc
  · have hci : c ≠ idle := by
      intro hci
      rw [hci, (hsame idle).1, hcore.idleState] at hz
      cases hz
    rw [hother c hci] at hz ⊢
    exact h.zombie c hc hz
  · rw [(hsame c).1]
    exact h.exitDead c code hc
  · rw [(hsame c).1]
    exact h.collectedDead c hc

theorem Agrees.scheduler (h : Agrees k r) (hcore : Core k) (htree : Tree k) : Agrees k.scheduler r := by
  obtain ⟨kr, hr, hcr, ⟨k', hsch, ht, -⟩ | ⟨n, k', hsch, hs, -, -, hwhy⟩⟩ := schedule_cases hcore
  · rw [Kernel.scheduler, hsch]
    exact (h.reaped htree hr).same ht.calm.sameTree
  · rw [Kernel.scheduler, hsch]
    exact (h.reaped htree hr).same (hs.sameTree (hcr.chosen_alive hwhy))

/-- Every recorded step keeps the record and the tree in agreement. -/
theorem Agrees.exec {a : Action} (h : Agrees r.kernel r) (hcore : Core r.kernel) (htree : Tree r.kernel)
    (hstep : r.kernel.Step a k') : Agrees k' (r.record k' a) := by
  cases a with
  | taskCreate entryPoint isUser onHeap space =>
    obtain ⟨-, rfl⟩ := of_guard hstep
    exact (h.taskCreate hcore entryPoint isUser onHeap space).moved
  | spawnJoin t rip rsp =>
    obtain ⟨⟨hrun, hcur, ht, hnew⟩, rfl⟩ := of_guard hstep
    exact h.spawnJoin hcore htree hrun hcur ht hnew rip rsp
  | spawnFail t =>
    obtain ⟨⟨-, ht, hnew⟩, rfl⟩ := of_guard hstep
    exact (h.spawnFail ht hnew).moved
  | exit code =>
    obtain ⟨hrun, rfl⟩ := of_guard hstep
    rw [record]
    by_cases hcur : r.kernel.current = idle
    · rw [if_pos hcur, exitWith_idle hcur]
      exact (h.exitIdle hcore code).moved
    · rw [if_neg hcur]
      exact h.exited hcore htree hrun (htree.exited_exitWith hcore hcur code)
  | waitpid pid =>
    obtain ⟨⟨hrun, hcur⟩, rfl⟩ := of_guard hstep
    rw [record, scan_eq_firstZombie, taskWaitpid_eq]
    cases hz : r.kernel.firstZombie pid with
    | some z =>
      obtain ⟨hzc, -, hzombie⟩ := of_firstZombie hz
      exact h.collect hcore htree hcur hrun hzc hzombie
    | none =>
      simp only []
      split <;> exact h.moved
  | scheduler =>
    obtain rfl := Option.some.inj hstep
    exact (h.scheduler hcore htree).moved
  | entry | taskSetReady | block | sleep | wake | wakeAll | tick =>
    exact (h.same (calm_of_exec hcore.idleUser hstep trivial).sameTree).moved

theorem agrees_boot (b : BootTasks) : Agrees b.kmain (boot b) where
  spawnOld := fun p c hpc => absurd hpc List.not_mem_nil
  pending := fun p c hpc => absurd hpc List.not_mem_nil
  child := by
    intro p hp hpi c hc
    rw [b.kmain_taskList] at hp
    rcases List.mem_cons.mp hp with rfl | hp
    · cases hc
    · exact absurd (List.mem_singleton.mp hp) hpi
  zombie := by
    intro c hc hz
    rw [b.kmain_taskList] at hc
    rcases List.mem_cons.mp hc with rfl | hc
    · cases hz
    · rw [List.mem_singleton.mp hc] at hz
      cases hz
  exitDead := fun c code hc => absurd hc List.not_mem_nil
  exitOnce := List.nodup_nil
  collectedDead := fun c hc => absurd hc List.not_mem_nil
  collectedOnce := List.nodup_nil

/-- In every state of a recorded run the record and the tree agree. -/
theorem agrees_of_reaches (b : BootTasks) (h : Reaches Step (boot b) r) :
    r.kernel.Core ∧ r.kernel.Tree ∧ Agrees r.kernel r := by
  refine h.invariant (I := fun r => r.kernel.Core ∧ r.kernel.Tree ∧ Agrees r.kernel r)
    ⟨core_kmain b, tree_kmain b, agrees_boot b⟩ ?_
  intro r a r' ⟨hcore, htree, hagrees⟩ ⟨k', hstep, hr'⟩
  have hkernel : r'.kernel = k' := by
    rw [hr']
    exact record_kernel r k' a
  rw [hkernel]
  refine ⟨hcore.exec hstep, htree.exec hcore hstep, ?_⟩
  rw [hr']
  exact hagrees.exec hcore htree hstep

/-- Every run of the kernel can be recorded. -/
theorem exists_record (b : BootTasks) {k : Kernel} (h : Reaches Kernel.Step b.kmain k) :
    ∃ r, Reaches Step (boot b) r ∧ r.kernel = k := by
  induction h with
  | start => exact ⟨boot b, .start, rfl⟩
  | @next k k' a _ hstep ih =>
    obtain ⟨r, hr, rfl⟩ := ih
    exact ⟨r.record k' a, .next hr ⟨k', hstep, rfl⟩, record_kernel r k' a⟩

/-- While a task runs, its children are the tasks it spawned and has not collected. -/
theorem Agrees.mem_children (h : Agrees k r) (hcore : Core k) (htree : Tree k) (hcur : k.current ≠ idle)
    (hrun : k.me.state = .running) :
    c ∈ k.me.children ↔ (k.current, c) ∈ r.spawned ∧ c ∉ r.collected := by
  refine ⟨h.child k.current hcore.current_mem hcur c, fun ⟨hs, hcol⟩ => ?_⟩
  rcases h.pending k.current c hs with ⟨code, hx⟩ | hx | ⟨hl, hpar⟩
  · have hst := (h.exitDead k.current code hx).2 hcore.current_mem
    rw [show (k.tasks k.current).state = .running from hrun] at hst
    exact absurd hst (by decide)
  · exact absurd hx hcol
  · exact (htree.parent c hl k.current hpar).2

end Recorded

theorem toInt_eq_neg_echild {u : ℕ} : toInt u = -ECHILD ↔ u = 4294967286 := by
  rw [toInt, ECHILD]
  split <;> omega

/-- **`task_waitpid` delivers each exit once.**  In every run, a call of the running task that answers a positive
number answers the pid of a task it spawned, that has exited, that matches the pid asked for and that no call
has returned before, together with the one code that task exited with; no task is collected twice; and no task
is freed before it was collected, unless its parent has exited.  The answer is `-ECHILD` exactly when the caller
has no uncollected child that matches, unless the zombie the call collects has the pid that reads as `-ECHILD`
when it is narrowed to an `int`. -/
theorem waitpid_delivers_once (b : BootTasks) {r : Recorded} (h : Reaches Recorded.Step (.boot b) r)
    (hcur : r.kernel.current ≠ idle) (hrun : r.kernel.me.state = .running) (pid : ℤ) :
    (∀ rpid status, (r.kernel.taskWaitpid pid).1 = .answer rpid status → 0 < rpid →
      ∃ c code, rpid = toInt (r.kernel.tasks c).pid ∧ status = some code ∧
        (r.kernel.current, c) ∈ r.spawned ∧ (pid ≤ 0 ∨ rpid = pid) ∧ c ∉ r.collected ∧
        (c, code) ∈ r.exits ∧ ∀ code', (c, code') ∈ r.exits → code' = code) ∧
    r.collected.Nodup ∧
    (∀ p c, (p, c) ∈ r.spawned → c ∈ r.kernel.freed → r.HasExited p ∨ c ∈ r.collected) ∧
    (((∃ status, (r.kernel.taskWaitpid pid).1 = .answer (-ECHILD) status) ↔
        ∀ c, (r.kernel.current, c) ∈ r.spawned → c ∉ r.collected → ¬r.kernel.Matches pid c) ↔
      ∀ z, r.kernel.firstZombie pid = some z → (r.kernel.tasks z).pid ≠ 4294967286) := by
  obtain ⟨hcore, htree, hagrees⟩ := Recorded.agrees_of_reaches b h
  have hmem : ∀ c, c ∈ r.kernel.me.children ↔ (r.kernel.current, c) ∈ r.spawned ∧ c ∉ r.collected :=
    fun c => hagrees.mem_children hcore htree hcur hrun
  have hwait := taskWaitpid_eq r.kernel pid
  refine ⟨fun rpid status hans hpos => ?_, hagrees.collectedOnce, fun p c hpc hfreed => ?_, ?_⟩
  · rw [hwait] at hans
    cases hz : r.kernel.firstZombie pid with
    | none =>
      rw [hz] at hans
      simp only [] at hans
      split at hans
      · cases hans
      · cases hans
        exact absurd hpos (by decide)
    | some z =>
      rw [hz] at hans
      cases hans
      obtain ⟨hzc, hmatch, hzombie⟩ := of_firstZombie hz
      obtain ⟨hspawn, hcol⟩ := (hmem z).mp hzc
      have hexit := hagrees.zombie z (htree.child _ hcore.current_mem z hzc).1 hzombie
      refine ⟨z, _, rfl, rfl, hspawn, hmatch, hcol, hexit, fun code' hc => ?_⟩
      exact (Prod.mk.inj (List.inj_on_of_nodup_map hagrees.exitOnce hc hexit rfl)).2
  · rcases hagrees.pending p c hpc with hx | hx | ⟨hl, -⟩
    · exact .inl hx
    · exact .inr hx
    · exact absurd hl (htree.freedGone c hfreed).1
  · rw [hwait]
    cases hz : r.kernel.firstZombie pid with
    | none =>
      refine ⟨fun _ z hz => absurd hz (by simp), fun _ => ?_⟩
      simp only []
      split
      · rename_i hsome
        obtain ⟨c, hc, hm⟩ := hsome
        refine ⟨fun ⟨status, hans⟩ => ?_, fun hnone => ?_⟩
        · cases hans
        · obtain ⟨h1, h2⟩ := (hmem c).mp hc
          exact absurd hm (hnone c h1 h2)
      · rename_i hnone
        refine ⟨fun _ c h1 h2 hm => hnone ⟨c, (hmem c).mpr ⟨h1, h2⟩, hm⟩, fun _ => ⟨none, rfl⟩⟩
    | some z =>
      obtain ⟨hzc, hmatch, -⟩ := of_firstZombie hz
      obtain ⟨h1, h2⟩ := (hmem z).mp hzc
      have hans : (∃ status, (WaitAnswer.answer (toInt (r.kernel.tasks z).pid)
          (some (r.kernel.tasks z).exitCode)) = .answer (-ECHILD) status) ↔
          (r.kernel.tasks z).pid = 4294967286 := by
        rw [← toInt_eq_neg_echild]
        refine ⟨fun ⟨status, heq⟩ => (WaitAnswer.answer.inj heq).1, fun heq => ?_⟩
        rw [heq]
        exact ⟨_, rfl⟩
      simp only []
      rw [hans]
      refine ⟨fun hiff z' hz' hpid => ?_, fun hpid => ?_⟩
      · rw [← Option.some.inj hz'] at hpid
        exact hiff.mp hpid z h1 h2 hmatch
      · refine ⟨fun heq => absurd heq (hpid z rfl), fun hnone => ?_⟩
        exact absurd hmatch (hnone z h1 h2)

/-- `init` runs again after its child has exited with code 7. -/
def childCollectable : Kernel :=
  sampleBoot.kmain.last [.scheduler, .taskCreate 0 true true childSpace, .spawnJoin 2 0x400000 0x700000,
    .block .child, .scheduler, .exit 7, .scheduler]

/-- The wait of `init` answers the pid of its child, with the code 7. -/
theorem waitpid_delivers_once_childCollectable :
    ∃ r : Recorded, r.kernel = childCollectable ∧ (childCollectable.taskWaitpid 3).1 = .answer 3 (some 7) ∧
      ∃ c, (1, c) ∈ r.spawned ∧ (c, 7) ∈ r.exits ∧ c ∉ r.collected := by
  have hreach : Reaches Kernel.Step sampleBoot.kmain childCollectable := (trace_last (by decide)).reaches .start
  obtain ⟨r, hr, hkernel⟩ := Recorded.exists_record sampleBoot hreach
  have hans : (childCollectable.taskWaitpid 3).1 = .answer 3 (some 7) := by decide
  obtain ⟨hpos, -⟩ := waitpid_delivers_once sampleBoot hr (by rw [hkernel]; decide) (by rw [hkernel]; decide) 3
  rw [hkernel] at hpos
  obtain ⟨c, code, -, hcode, hspawn, -, hcol, hexit, -⟩ := hpos 3 (some 7) hans (by decide)
  rw [← Option.some.inj hcode] at hexit
  exact ⟨r, hkernel, hans, c, hspawn, hexit, hcol⟩

/-! ### The pid that reads as an error -/

/-- The shell runs and has no children, and `init` waits for it. -/
structure ShellAlone (k : Kernel) : Prop where
  taskList : k.taskList = [2, 1, idle]
  current : k.current = 2
  running : (k.tasks 2).state = .running
  initWaits : (k.tasks 1).state = .waiting
  childless : (k.tasks 2).children = []

/-- A `spawn` of the shell that fails to load its image, up to the reaper, uses up one pid. -/
theorem ShellAlone.failedSpawn {b : BootTasks} {k : Kernel} (h : ShellAlone k)
    (hreach : Reaches Kernel.Step b.kmain k) :
    ∃ k', ShellAlone k' ∧ Reaches Kernel.Step b.kmain k' ∧ k'.pidCounter = (k.pidCounter + 1) % 2 ^ 32 := by
  have hcore := core_of_reaches b hreach
  have hfresh := hcore.nextTask_not_mem
  rw [h.taskList] at hfresh
  obtain ⟨hn2, hn1, hni⟩ : k.nextTask ≠ 2 ∧ k.nextTask ≠ 1 ∧ k.nextTask ≠ idle := by
    simpa using hfresh
  have hrun : k.me.state = .running := by
    rw [me, h.current]
    exact h.running
  set k₁ := k.taskCreate 0 true true childSpace with hk₁
  have hold₁ : ∀ x, x ≠ k.nextTask → k₁.tasks x = k.tasks x := fun x hx => taskCreate_of_ne hx ..
  have hnew₁ : (k₁.tasks k.nextTask).state = .new := by
    rw [hk₁]
    simp only [Kernel.taskCreate, Function.update_self]
  have hlist₁ : k₁.taskList = k.nextTask :: [2, 1, idle] := by
    rw [← h.taskList]
    rfl
  have hrun₁ : k₁.me.state = .running := by
    rw [me, show k₁.current = 2 from h.current, hold₁ 2 (Ne.symm hn2)]
    exact h.running
  have hreach₁ : Reaches Kernel.Step b.kmain k₁ :=
    .next (a := .taskCreate 0 true true childSpace) hreach (if_pos hrun)
  set k₂ := (k₁.spawnFail k.nextTask).2 with hk₂
  have hreach₂ : Reaches Kernel.Step b.kmain k₂ :=
    .next (a := .spawnFail k.nextTask) hreach₁ (if_pos ⟨hrun₁, by rw [hlist₁]; simp, hnew₁⟩)
  have hold₂ : ∀ x, x ≠ k.nextTask → k₂.tasks x = k.tasks x := by
    intro x hx
    rw [hk₂, Kernel.spawnFail, setTask_of_ne _ hx, hold₁ x hx]
  have hdead₂ : (k₂.tasks k.nextTask).state = .terminated := by
    rw [hk₂, Kernel.spawnFail, setTask_self]
  have hcur₂ : k₂.current = 2 := h.current
  have hcore₂ := core_of_reaches b hreach₂
  -- the reaper takes the failed task, and the shell goes on
  obtain ⟨kr, hr, hcr, hcases⟩ := schedule_cases hcore₂
  have hdoomed : k₂.Doomed k.nextTask := ⟨hni, by rw [hcur₂]; exact hn2, hdead₂⟩
  have hstate : ∀ x, x ≠ k.nextTask → (kr.tasks x).state = (k.tasks x).state := by
    intro x hx
    rw [hr.state, hold₂ x hx]
  have hlist : kr.taskList = [2, 1, idle] := by
    have hlist₂ : k₂.taskList = k.nextTask :: [2, 1, idle] := hlist₁
    have hkeep : ∀ x ∈ [2, 1, idle], ¬k₂.Doomed x := by
      intro x hx hd
      have hst := hd.2.2
      rw [hold₂ x (fun hxn => hfresh (hxn ▸ hx))] at hst
      have hx' : x = 2 ∨ x = 1 ∨ x = idle := by simpa using hx
      rcases hx' with rfl | rfl | rfl
      · exact absurd (h.running.symm.trans hst) (by decide)
      · exact absurd (h.initWaits.symm.trans hst) (by decide)
      · exact hd.1 rfl
    rw [hr.taskList, hlist₂, List.filter_cons_of_neg (by simp [hdoomed]), List.filter_eq_self]
    intro x hx
    simp [hkeep x hx]
  have hrunr : kr.me.state = .running := by
    rw [me, hr.current, hcur₂, hstate 2 (Ne.symm hn2)]
    exact h.running
  have hpid : k₂.scheduler.pidCounter = (k.pidCounter + 1) % 2 ^ 32 := by
    rw [scheduler_pidCounter]
    rfl
  refine ⟨k₂.scheduler, ?_, .next (a := .scheduler) hreach₂ rfl, hpid⟩
  obtain ⟨k', hsch, ht, -⟩ | ⟨m, k', -, -, hmc, hml, hwhy⟩ := hcases
  · rw [Kernel.scheduler, hsch]
    obtain ⟨ticks, hme'⟩ := ht.tasks 2
    refine ⟨ht.taskList.trans hlist, ht.current.trans (hr.current.trans hcur₂), ?_, ?_, ?_⟩
    · rw [ht.state, hstate 2 (Ne.symm hn2)]
      exact h.running
    · rw [ht.state, hstate 1 (Ne.symm hn1)]
      exact h.initWaits
    · rw [hme', hr.tasks, Task.keepChildren, hold₂ 2 (Ne.symm hn2), h.childless]
      rfl
  · exfalso
    rcases hwhy with hnext | ⟨-, -, hme⟩
    · obtain ⟨hready, hmi, -⟩ := nextReadyTask_some hnext
      rw [hr.current, hcur₂] at hmc
      rw [hlist] at hml
      have hm1 : m = 1 := by simpa [hmc, hmi] using hml
      rw [hm1, hstate 1 (Ne.symm hn1), h.initWaits] at hready
      cases hready
    · exact hme hrunr

/-- The shell spawns a child and waits for it, and the child exits with code 7: when the shell runs again, the
child is a zombie with the next pid. -/
theorem ShellAlone.childExits {b : BootTasks} {k : Kernel} (h : ShellAlone k)
    (hreach : Reaches Kernel.Step b.kmain k) :
    ∃ k' z, Reaches Kernel.Step b.kmain k' ∧ k'.current = 2 ∧ k'.me.state = .running ∧
      k'.me.children = [z] ∧ (k'.tasks z).state = .zombie ∧ (k'.tasks z).exitCode = 7 ∧
      (k'.tasks z).pid = (k.pidCounter + 1) % 2 ^ 32 := by
  have hcore := core_of_reaches b hreach
  have hfresh := hcore.nextTask_not_mem
  rw [h.taskList] at hfresh
  set n := k.nextTask with hn
  obtain ⟨hn2, hn1, hni⟩ : n ≠ 2 ∧ n ≠ 1 ∧ n ≠ idle := by simpa using hfresh
  have hrun : k.me.state = .running := by
    rw [me, h.current]
    exact h.running
  -- the task is created
  set k₁ := k.taskCreate 0 true true childSpace with hk₁
  have hold₁ : ∀ x, x ≠ n → k₁.tasks x = k.tasks x := fun x hx => taskCreate_of_ne hx ..
  have hnew₁ : (k₁.tasks n).state = .new ∧ (k₁.tasks n).children = [] ∧
      (k₁.tasks n).pid = (k.pidCounter + 1) % 2 ^ 32 := by
    rw [hk₁]
    simp only [Kernel.taskCreate, ← hn, Function.update_self, and_self]
  have hcur₁ : k₁.current = 2 := h.current
  have hlist₁ : k₁.taskList = [n, 2, 1, idle] := by
    rw [show [n, 2, 1, idle] = n :: [2, 1, idle] from rfl, ← h.taskList]
    rfl
  have hme₁ : k₁.me = k.tasks 2 := by rw [me, hcur₁, hold₁ 2 (Ne.symm hn2)]
  have hrun₁ : k₁.me.state = .running := by rw [hme₁, h.running]
  have hreach₁ : Reaches Kernel.Step b.kmain k₁ :=
    .next (a := .taskCreate 0 true true childSpace) hreach (if_pos hrun)
  -- it joins the children of the shell
  set k₂ := (k₁.spawnJoin n 0 0).2 with hk₂
  have hreach₂ : Reaches Kernel.Step b.kmain k₂ := by
    refine .next (a := .spawnJoin n 0 0) hreach₁ (if_pos ⟨hrun₁, ?_, ?_, hnew₁.1⟩)
    · rw [hcur₁]
      decide
    · rw [hlist₁]
      exact List.mem_cons_self
  have hnc₁ : n ≠ k₁.current := by
    rw [hcur₁]
    exact hn2
  have hrest₂ := spawnJoin_rest k₁ n 0 0
  have htasks₂ := spawnJoin_tasks hnc₁ hnew₁.1 0 0
  rw [← hk₂] at hrest₂ htasks₂
  have hn₂ : k₂.tasks n = (k₁.tasks n).joined 2 0 0 := by rw [htasks₂, if_pos rfl, hcur₁]
  have hshell₂ : k₂.tasks 2 = { k.tasks 2 with children := [n] } := by
    rw [htasks₂, if_neg (Ne.symm hn2), if_pos hcur₁.symm, hme₁, h.childless]
    rfl
  have hinit₂ : (k₂.tasks 1).state = .waiting := by
    rw [htasks₂, if_neg (Ne.symm hn1), if_neg (by rw [hcur₁]; decide), hold₁ 1 (Ne.symm hn1)]
    exact h.initWaits
  have hcur₂ : k₂.current = 2 := hrest₂.current.trans hcur₁
  have hlist₂ : k₂.taskList = [n, 2, 1, idle] := hrest₂.taskList.trans hlist₁
  have hrun₂ : k₂.me.state = .running := by
    rw [me, hcur₂, hshell₂]
    exact h.running
  -- the shell blocks
  set k₃ := k₂.taskBlock .child with hk₃
  have hreach₃ : Reaches Kernel.Step b.kmain k₃ := .next (a := .block .child) hreach₂ (if_pos hrun₂)
  have hblock : k₃ = k₂.setTask 2 fun t => { t with waitKind := .child, state := .waiting } := by
    rw [hk₃, taskBlock, if_neg (by rw [hcur₂]; decide), hcur₂]
  have hshell₃ : k₃.tasks 2 = { k.tasks 2 with children := [n], waitKind := .child, state := .waiting } := by
    rw [hblock, setTask_self, hshell₂]
  have hold₃ : ∀ x, x ≠ 2 → k₃.tasks x = k₂.tasks x := by
    intro x hx
    rw [hblock, setTask_of_ne _ hx]
  have hcur₃ : k₃.current = 2 := by
    rw [hblock]
    exact hcur₂
  have hlist₃ : k₃.taskList = [n, 2, 1, idle] := by
    rw [hblock]
    exact hlist₂
  have hcore₃ := core_of_reaches b hreach₃
  have hn₃ : k₃.tasks n = (k₁.tasks n).joined 2 0 0 := by rw [hold₃ n hn2, hn₂]
  have hstate₃ : (k₃.tasks n).state = .ready ∧ (k₃.tasks 2).state = .waiting ∧ (k₃.tasks 1).state = .waiting := by
    rw [hn₃, hshell₃, hold₃ 1 (by decide)]
    exact ⟨rfl, rfl, hinit₂⟩
  have hmem₃ : ∀ x ∈ k₃.taskList, x = n ∨ x = 2 ∨ x = 1 ∨ x = idle := by
    intro x hx
    rw [hlist₃] at hx
    simpa using hx
  -- so the child runs
  obtain ⟨hsame₄, hcur₄, hrun₄, hothers₄⟩ := scheduler_to_only_ready (n := n) hcore₃
    (by
      intro x hx hst
      rcases hmem₃ x hx with rfl | rfl | rfl | rfl
      · exact absurd (hstate₃.1.symm.trans hst) (by decide)
      · exact absurd (hstate₃.2.1.symm.trans hst) (by decide)
      · exact absurd (hstate₃.2.2.symm.trans hst) (by decide)
      · exact absurd (hcore₃.idleState.symm.trans hst) (by decide))
    (by rw [me, hcur₃, hstate₃.2.1]; decide)
    (by rw [hlist₃]; exact List.mem_cons_self) hni (by rw [hcur₃]; exact hn2) hstate₃.1
    (by
      intro x hx hst
      rcases hmem₃ x hx with hx | hx | hx | hx
      · exact hx
      · exact absurd (hstate₃.2.1.symm.trans (hx ▸ hst)) (by decide)
      · exact absurd (hstate₃.2.2.symm.trans (hx ▸ hst)) (by decide)
      · exact absurd (hcore₃.idleState.symm.trans (hx ▸ hst)) (by decide))
  have hreach₄ : Reaches Kernel.Step b.kmain k₃.scheduler := .next (a := .scheduler) hreach₃ rfl
  set k₄ := k₃.scheduler
  obtain ⟨hpid₄, -, -, -, -, hpar₄, hch₄, -⟩ := Task.links_inj (hsame₄.links n)
  have hme₄ : k₄.me.state = .running := by
    rw [me, hcur₄]
    exact hrun₄
  have hparent₄ : k₄.me.parent = some 2 := by
    rw [me, hcur₄, hpar₄, hn₃]
    rfl
  have hchildren₄ : k₄.me.children = [] := by
    rw [me, hcur₄, hch₄, hn₃]
    exact hnew₁.2.1
  obtain ⟨hcore₄, htree₄⟩ := tree_of_reaches b hreach₄
  have hcurIdle₄ : k₄.current ≠ idle := by
    rw [hcur₄]
    exact hni
  -- and exits
  have he := htree₄.exited_exitWith hcore₄ hcurIdle₄ 7
  have hreach₅ : Reaches Kernel.Step b.kmain (k₄.exitWith 7) := .next (a := .exit 7) hreach₄ (if_pos hme₄)
  set k₅ := k₄.exitWith 7
  have hz₅ : (k₅.tasks n).state = .zombie ∧ (k₅.tasks n).exitCode = 7 ∧
      (k₅.tasks n).pid = (k.pidCounter + 1) % 2 ^ 32 := by
    have hun : ¬Unparented k₄.me := by
      rw [Unparented, hparent₄]
      simp [idle]
    have hme := he.me
    rw [hcur₄] at hme
    rw [hme]
    refine ⟨if_neg hun, rfl, ?_⟩
    show k₄.me.pid = _
    rw [me, hcur₄, hpid₄, hn₃]
    exact hnew₁.2.2
  have hshell₅ : k₅.tasks 2 = (k₄.tasks 2).childExited := by
    rw [he.parent 2 (by rw [hcur₄]; exact Ne.symm hn2) (by decide) hparent₄, hchildren₄]
    rfl
  have hwait₄ : (k₄.tasks 2).state = .waiting ∧ (k₄.tasks 2).waitKind = .child := by
    rw [(hothers₄ 2 (Ne.symm hn2)).1, (hothers₄ 2 (Ne.symm hn2)).2, hshell₃]
    exact ⟨rfl, rfl⟩
  have hready₅ : (k₅.tasks 2).state = .ready := by
    rw [hshell₅, Task.childExited, if_pos hwait₄]
    rfl
  have hchildren₅ : (k₅.tasks 2).children = [n] := by
    rw [hshell₅, Task.childExited_children, hsame₄.children, hshell₃]
  have hinit₅ : (k₅.tasks 1).state = .waiting := by
    rw [he.others 1 (by rw [hcur₄]; exact Ne.symm hn1) (by decide) (by rw [hparent₄]; decide), hchildren₄,
      if_neg List.not_mem_nil, (hothers₄ 1 (Ne.symm hn1)).1, hstate₃.2.2]
  have hcur₅ : k₅.current = n := he.rest.current.trans hcur₄
  have hlist₅ : k₅.taskList = [n, 2, 1, idle] := he.rest.taskList.trans (hsame₄.taskList.trans hlist₃)
  have hcore₅ := core_of_reaches b hreach₅
  have hmem₅ : ∀ x ∈ k₅.taskList, x = n ∨ x = 2 ∨ x = 1 ∨ x = idle := by
    intro x hx
    rw [hlist₅] at hx
    simpa using hx
  -- so the shell runs again
  obtain ⟨hsame₆, hcur₆, hrun₆, hothers₆⟩ := scheduler_to_only_ready (n := 2) hcore₅
    (by
      intro x hx hst
      rcases hmem₅ x hx with rfl | rfl | rfl | rfl
      · exact absurd (hz₅.1.symm.trans hst) (by decide)
      · exact absurd (hready₅.symm.trans hst) (by decide)
      · exact absurd (hinit₅.symm.trans hst) (by decide)
      · exact absurd (hcore₅.idleState.symm.trans hst) (by decide))
    (by rw [me, hcur₅, hz₅.1]; decide)
    (by rw [hlist₅]; simp) (by decide) (by rw [hcur₅]; exact Ne.symm hn2) hready₅
    (by
      intro x hx hst
      rcases hmem₅ x hx with hx | hx | hx | hx
      · exact absurd (hz₅.1.symm.trans (hx ▸ hst)) (by decide)
      · exact hx
      · exact absurd (hinit₅.symm.trans (hx ▸ hst)) (by decide)
      · exact absurd (hcore₅.idleState.symm.trans (hx ▸ hst)) (by decide))
  obtain ⟨hpid₆, hcode₆, -⟩ := Task.links_inj (hsame₆.links n)
  refine ⟨k₅.scheduler, n, .next (a := .scheduler) hreach₅ rfl, hcur₆, ?_, ?_, ?_, ?_, ?_⟩
  · rw [me, hcur₆]
    exact hrun₆
  · rw [me, hcur₆, hsame₆.children, hchildren₅]
  · rw [(hothers₆ n hn2).1]
    exact hz₅.1
  · rw [hcode₆]
    exact hz₅.2.1
  · rw [hpid₆]
    exact hz₅.2.2

/-- The state in which the shell of the sample boot starts to run. -/
def shellStarted : Kernel :=
  sampleBoot.kmain.last [.scheduler, .taskCreate 0 true true childSpace, .spawnJoin 2 0x400000 0x700000,
    .block .child, .scheduler]

/-- After enough failed spawns the counter has any value that is left. -/
theorem exists_shellAlone (n : ℕ) (hn : n + 3 < 2 ^ 32) :
    ∃ k, ShellAlone k ∧ Reaches Kernel.Step sampleBoot.kmain k ∧ k.pidCounter = n + 3 := by
  induction n with
  | zero =>
    exact ⟨shellStarted, ⟨by decide, by decide, by decide, by decide, by decide⟩,
      (trace_last (by decide)).reaches .start, by decide⟩
  | succ n ih =>
    obtain ⟨k, halone, hreach, hpid⟩ := ih (by omega)
    obtain ⟨k', halone', hreach', hpid'⟩ := halone.failedSpawn hreach
    refine ⟨k', halone', hreach', ?_⟩
    rw [hpid', hpid, Nat.mod_eq_of_lt (by omega)]

/-- The shell has spawned a child that has exited with code 7 and that nobody has collected, and still a wait for
any child answers `-ECHILD`. -/
theorem waitpid_answers_echild :
    ∃ r : Recorded, Reaches Recorded.Step (.boot sampleBoot) r ∧ r.kernel.current = 2 ∧
      r.kernel.me.state = .running ∧
      ∃ c, (2, c) ∈ r.spawned ∧ (c, 7) ∈ r.exits ∧ c ∉ r.collected ∧ r.kernel.Matches (-1) c ∧
        (r.kernel.taskWaitpid (-1)).1 = .answer (-ECHILD) (some 7) := by
  obtain ⟨k, halone, hreach, hpid⟩ := exists_shellAlone 4294967282 (by decide)
  obtain ⟨k', z, hreach', hcur, hrun, hchildren, hzombie, hcode, hpid'⟩ := halone.childExits hreach
  obtain ⟨r, hr, rfl⟩ := Recorded.exists_record sampleBoot hreach'
  obtain ⟨hcore, htree, hagrees⟩ := Recorded.agrees_of_reaches sampleBoot hr
  have hmatch : r.kernel.Matches (-1) z := .inl (by decide)
  have hmem : z ∈ r.kernel.me.children := by
    rw [hchildren]
    exact List.mem_singleton_self z
  obtain ⟨hspawn, hcol⟩ := (hagrees.mem_children hcore htree (by rw [hcur]; decide) hrun).mp hmem
  rw [hcur] at hspawn
  have hexit := hagrees.zombie z (htree.child _ hcore.current_mem z hmem).1 hzombie
  rw [hcode] at hexit
  refine ⟨r, hr, hcur, hrun, z, hspawn, hexit, hcol, hmatch, ?_⟩
  have hfirst : r.kernel.firstZombie (-1) = some z := by
    rw [firstZombie, hchildren]
    exact List.find?_cons_of_pos (decide_eq_true ⟨hmatch, hzombie⟩)
  have hneg : toInt (r.kernel.tasks z).pid = -ECHILD := by
    rw [toInt_eq_neg_echild, hpid', hpid]
    decide
  rw [taskWaitpid_eq, hfirst]
  show WaitAnswer.answer (toInt (r.kernel.tasks z).pid) (some (r.kernel.tasks z).exitCode) = _
  rw [hneg, hcode]

end LizardOs.Sched
