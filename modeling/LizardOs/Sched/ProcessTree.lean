import LizardOs.Sched.Scheduler

/-!
# The process tree

Parents and children change in four places: `spawn` links a child, `task_exit` hands the children over to `idle`,
`task_waitpid` takes a zombie out, and the reaper unlinks what it frees.  `Tree` says that parents and child lists
agree, that the dead have no children, and that a zombie has a live parent other than `idle`; every step keeps it.
-/

namespace LizardOs.Sched

open LizardOs.Lib

namespace Kernel

variable {k k' : Kernel} {t x c n p : ℕ}

/-- What the state of a task says about its place in the tree. -/
structure Lawful (id : ℕ) (t : Task) : Prop where
  childless : t.state ∈ [TaskState.zombie, .terminated, .new] → t.children = []
  zombie : t.state = .zombie → ¬Unparented t
  terminated : t.state = .terminated → Unparented t
  newborn : t.state = .new → t.parent = none
  linked : t.parent ≠ none → t.siblingLinked = true
  notOwn : t.parent ≠ some id

/-- Parents and child lists agree, and the reaper has freed each task once. -/
structure Tree (k : Kernel) : Prop where
  parent : ∀ t ∈ k.taskList, ∀ p, (k.tasks t).parent = some p → p ∈ k.taskList ∧ t ∈ (k.tasks p).children
  child : ∀ p ∈ k.taskList, ∀ c ∈ (k.tasks p).children, c ∈ k.taskList ∧ (k.tasks c).parent = some p
  lawful : ∀ t ∈ k.taskList, Lawful t (k.tasks t)
  idleParent : (k.tasks idle).parent = none
  freedGone : ∀ t ∈ k.freed, t ∉ k.taskList ∧ t < k.nextTask
  freedOnce : k.freed.Nodup

/-- A task that is alive is lawful when its parent links it and is not itself. -/
theorem lawful_of_alive {id : ℕ} {t : Task} (h : t.state ∉ [TaskState.zombie, .terminated, .new])
    (hlinked : t.parent ≠ none → t.siblingLinked = true) (hown : t.parent ≠ some id) : Lawful id t := by
  refine ⟨fun hst => absurd hst h, fun hst => ?_, fun hst => ?_, fun hst => ?_, hlinked, hown⟩
  all_goals
    rw [hst] at h
    exact absurd (by decide) h

/-- A task whose links are those of a lawful one, and whose state is too or is alive. -/
theorem Lawful.same {id : ℕ} {t t' : Task} (h : Lawful id t) (hlinks : t'.links = t.links)
    (hdead : t'.state ∈ [TaskState.zombie, .terminated, .new] → t'.state = t.state) : Lawful id t' := by
  obtain ⟨-, -, -, -, -, hparent, hchildren, hlinked⟩ := Task.links_inj hlinks
  have hun : Unparented t' ↔ Unparented t := by rw [Unparented, Unparented, hparent]
  refine ⟨fun hst => ?_, fun hst => ?_, fun hst => ?_, fun hst => ?_, fun hp => ?_, ?_⟩
  · rw [hchildren]
    exact h.childless (hdead hst ▸ hst)
  · rw [hun]
    exact h.zombie (hdead (by rw [hst]; decide) ▸ hst)
  · rw [hun]
    exact h.terminated (hdead (by rw [hst]; decide) ▸ hst)
  · rw [hparent]
    exact h.newborn (hdead (by rw [hst]; decide) ▸ hst)
  · rw [hlinked]
    exact h.linked (hparent ▸ hp)
  · rw [hparent]
    exact h.notOwn

/-- The lists and links are the same, and nobody died or came to life. -/
structure SameTree (k k' : Kernel) : Prop where
  taskList : k'.taskList = k.taskList
  nextTask : k'.nextTask = k.nextTask
  freed : k'.freed = k.freed
  links : ∀ x, (k'.tasks x).links = (k.tasks x).links
  dead : ∀ x, (k'.tasks x).state ∈ [TaskState.zombie, .terminated, .new] →
    (k'.tasks x).state = (k.tasks x).state
  stays : ∀ x, (k.tasks x).state ∈ [TaskState.zombie, .terminated] → (k'.tasks x).state = (k.tasks x).state

theorem SameTree.parent (h : SameTree k k') (x : ℕ) : (k'.tasks x).parent = (k.tasks x).parent :=
  (Task.links_inj (h.links x)).2.2.2.2.2.1

theorem SameTree.children (h : SameTree k k') (x : ℕ) : (k'.tasks x).children = (k.tasks x).children :=
  (Task.links_inj (h.links x)).2.2.2.2.2.2.1

theorem SameTree.trans {k'' : Kernel} (h : SameTree k k') (h' : SameTree k' k'') : SameTree k k'' := by
  refine ⟨h'.taskList.trans h.taskList, h'.nextTask.trans h.nextTask, h'.freed.trans h.freed,
    fun x => (h'.links x).trans (h.links x), fun x hst => ?_, fun x hst => ?_⟩
  · have hsame := h'.dead x hst
    rw [hsame] at hst ⊢
    exact h.dead x hst
  · have hsame := h.stays x hst
    rw [← hsame] at hst ⊢
    exact h'.stays x hst

/-- A step that changes no parent and no list keeps the tree if it leaves every task lawful. -/
theorem Tree.of_lawful (h : Tree k) (hlist : k'.taskList = k.taskList) (hnext : k'.nextTask = k.nextTask)
    (hfreed : k'.freed = k.freed) (hparent : ∀ x, (k'.tasks x).parent = (k.tasks x).parent)
    (hchildren : ∀ x, (k'.tasks x).children = (k.tasks x).children)
    (hlawful : ∀ t ∈ k.taskList, Lawful t (k'.tasks t)) : Tree k' where
  parent := by
    intro t ht p hp
    rw [hlist] at ht ⊢
    rw [hparent] at hp
    rw [hchildren]
    exact h.parent t ht p hp
  child := by
    intro p hp c hc
    rw [hlist] at hp ⊢
    rw [hchildren] at hc
    rw [hparent]
    exact h.child p hp c hc
  lawful := hlist ▸ hlawful
  idleParent := (hparent idle).trans h.idleParent
  freedGone := by
    rw [hfreed, hlist, hnext]
    exact h.freedGone
  freedOnce := hfreed ▸ h.freedOnce

theorem Tree.same (h : Tree k) (hs : SameTree k k') : Tree k' :=
  h.of_lawful hs.taskList hs.nextTask hs.freed hs.parent hs.children fun t ht =>
    (h.lawful t ht).same (hs.links t) (hs.dead t)

theorem Calm.sameTree (h : Calm k k') : SameTree k k' := by
  refine ⟨h.taskList, h.nextTask, h.freed, h.links, fun x hst => ?_, fun x hst => ?_⟩
  · rcases h.moves x with ⟨h1, -⟩ | ⟨-, h1⟩ | ⟨-, -, -, h1⟩
    · exact h1
    · rw [h1] at hst
      exact absurd hst (by decide)
    · rw [h1] at hst
      exact absurd hst (by decide)
  · rcases h.moves x with ⟨h1, -⟩ | ⟨h1 | h1, -⟩ | ⟨-, -, h1, -⟩
    · exact h1
    · rw [h1] at hst
      exact absurd hst (by decide)
    · rw [h1] at hst
      exact absurd hst (by decide)
    · rw [h1] at hst
      exact absurd hst (by decide)

theorem Switched.sameTree (h : Switched k k' n)
    (hn : (k.tasks n).state ∉ [TaskState.zombie, .terminated]) : SameTree k k' := by
  refine ⟨h.taskList, h.nextTask, h.freed, h.links, fun x hst => ?_, fun x hst => ?_⟩
  · by_cases hxn : x = n
    · rw [hxn, h.next] at hst
      exact absurd hst (by decide)
    · by_cases hxc : x = k.current
      · rw [hxc, h.cur] at hst ⊢
        split at hst
        · exact absurd hst (by decide)
        · rename_i hnot
          rw [if_neg hnot]
          rfl
      · exact h.others x hxn hxc
  · by_cases hxn : x = n
    · rw [hxn] at hst
      exact absurd hst hn
    · by_cases hxc : x = k.current
      · have hnot : ¬(k.me.state = .running ∧ k.current ≠ idle) := by
          intro hrun
          have hme : (k.tasks k.current).state = .running := hrun.1
          rw [hxc, hme] at hst
          exact absurd hst (by decide)
        rw [hxc, h.cur, if_neg hnot]
        rfl
      · exact h.others x hxn hxc

theorem Tree.taskCreate (h : Tree k) (hcore : Core k) (entryPoint : ℕ) (isUser onHeap : Bool)
    (space : AddrSpace) : Tree (k.taskCreate entryPoint isUser onHeap space) := by
  set k' := k.taskCreate entryPoint isUser onHeap space with hk'
  have hold : ∀ x ∈ k.taskList, k'.tasks x = k.tasks x := by
    intro x hx
    exact taskCreate_of_ne (fun hxn => hcore.nextTask_not_mem (hxn ▸ hx)) ..
  have hnew : (k'.tasks k.nextTask).parent = none ∧ (k'.tasks k.nextTask).children = [] ∧
      (k'.tasks k.nextTask).state = .new := by
    rw [hk']
    simp only [Kernel.taskCreate, Function.update_self, and_self]
  have hmem : ∀ x, x ∈ k'.taskList ↔ x = k.nextTask ∨ x ∈ k.taskList := fun x => List.mem_cons
  constructor
  · intro t ht p hp
    rcases (hmem t).mp ht with rfl | ht
    · rw [hnew.1] at hp
      cases hp
    · rw [hold t ht] at hp
      obtain ⟨hpl, hc⟩ := h.parent t ht p hp
      rw [hold p hpl]
      exact ⟨(hmem p).mpr (.inr hpl), hc⟩
  · intro p hp c hc
    rcases (hmem p).mp hp with rfl | hp
    · rw [hnew.2.1] at hc
      cases hc
    · rw [hold p hp] at hc
      obtain ⟨hcl, hpar⟩ := h.child p hp c hc
      rw [hold c hcl]
      exact ⟨(hmem c).mpr (.inr hcl), hpar⟩
  · intro t ht
    rcases (hmem t).mp ht with rfl | ht
    · refine ⟨fun _ => hnew.2.1, fun hst => ?_, fun _ => .inl hnew.1, fun _ => hnew.1,
        fun hp => absurd hnew.1 hp, by rw [hnew.1]; simp⟩
      exact absurd (hnew.2.2.symm.trans hst) (by decide)
    · rw [hold t ht]
      exact h.lawful t ht
  · rw [hold idle hcore.idle_mem]
    exact h.idleParent
  · intro t ht
    obtain ⟨h1, h2⟩ := h.freedGone t ht
    refine ⟨fun hmem' => ?_, Nat.lt_succ_of_lt h2⟩
    rcases (hmem t).mp hmem' with rfl | hmem'
    · exact Nat.lt_irrefl _ h2
    · exact h1 hmem'
  · exact h.freedOnce

/-- A task without a parent is on no list of children. -/
theorem Tree.not_child (h : Tree k) (hc : (k.tasks c).parent = none) (hp : p ∈ k.taskList) :
    c ∉ (k.tasks p).children := by
  intro hmem
  rw [(h.child p hp c hmem).2] at hc
  cases hc

theorem Tree.spawnJoin (h : Tree k) (hcore : Core k) (hrun : k.me.state = .running) (ht : t ∈ k.taskList)
    (hnew : (k.tasks t).state = .new) (rip rsp : ℕ) : Tree (k.spawnJoin t rip rsp).2 := by
  have htc := ne_current_of_new hrun hnew
  have hti : t ≠ idle := by
    intro hidle
    rw [hidle, hcore.idleState] at hnew
    cases hnew
  have hrest := spawnJoin_rest k t rip rsp
  have htasks := spawnJoin_tasks htc hnew rip rsp
  have hparent := spawnJoin_parent htc hnew rip rsp
  have hchildren := spawnJoin_children htc hnew rip rsp
  generalize (k.spawnJoin t rip rsp).2 = k' at hrest htasks hparent hchildren ⊢
  have hbare := (h.lawful t ht).newborn hnew
  have hnoChild : ∀ p ∈ k.taskList, t ∉ (k.tasks p).children := fun p hp => h.not_child hbare hp
  constructor
  · intro x hx p hp
    rw [hrest.taskList] at hx ⊢
    rw [hparent] at hp
    rw [hchildren]
    split at hp
    · rename_i hxt
      obtain rfl := Option.some.inj hp
      refine ⟨hcore.current_mem, ?_⟩
      rw [if_pos rfl, hxt]
      simp
    · obtain ⟨hpl, hc⟩ := h.parent x hx p hp
      refine ⟨hpl, ?_⟩
      split
      · rename_i hpc
        rw [hpc] at hc
        exact List.mem_append_left _ hc
      · exact hc
  · intro p hp c hc
    rw [hrest.taskList] at hp ⊢
    rw [hchildren] at hc
    rw [hparent]
    split at hc
    · rename_i hpc
      rcases List.mem_append.mp hc with hc | hc
      · obtain ⟨hcl, hpar⟩ := h.child k.current hcore.current_mem c hc
        have hct : c ≠ t := fun hct => hnoChild k.current hcore.current_mem (hct ▸ hc)
        rw [if_neg hct, hpc]
        exact ⟨hcl, hpar⟩
      · obtain rfl := List.mem_singleton.mp hc
        rw [if_pos rfl, hpc]
        exact ⟨ht, rfl⟩
    · obtain ⟨hcl, hpar⟩ := h.child p hp c hc
      have hct : c ≠ t := fun hct => hnoChild p hp (hct ▸ hc)
      rw [if_neg hct]
      exact ⟨hcl, hpar⟩
  · intro x hx
    rw [hrest.taskList] at hx
    rw [htasks]
    by_cases hxt : x = t
    · rw [if_pos hxt, hxt]
      refine lawful_of_alive (by simp [Task.joined]) (fun _ => rfl) ?_
      exact fun hc => htc (Option.some.inj hc).symm
    · rw [if_neg hxt]
      by_cases hxc : x = k.current
      · have hlaw := h.lawful k.current hcore.current_mem
        rw [if_pos hxc, hxc]
        refine lawful_of_alive ?_ hlaw.linked hlaw.notOwn
        show k.me.state ∉ _
        rw [hrun]
        decide
      · rw [if_neg hxc]
        exact h.lawful x hx
  · rw [hparent, if_neg (Ne.symm hti)]
    exact h.idleParent
  · rw [hrest.freed, hrest.taskList, hrest.nextTask]
    exact h.freedGone
  · rw [hrest.freed]
    exact h.freedOnce

theorem Tree.spawnFail (h : Tree k) (ht : t ∈ k.taskList) (hnew : (k.tasks t).state = .new) :
    Tree (k.spawnFail t).2 := by
  set k' := (k.spawnFail t).2 with hk'
  have htasks : ∀ x, k'.tasks x = if x = t then { k.tasks t with state := .terminated } else k.tasks x := by
    intro x
    rw [hk', Kernel.spawnFail]
    by_cases hxt : x = t
    · rw [if_pos hxt, hxt, setTask_self]
    · rw [if_neg hxt, setTask_of_ne _ hxt]
  have hlaw := h.lawful t ht
  have hnone := hlaw.newborn hnew
  refine h.of_lawful rfl rfl rfl (fun x => ?_) (fun x => ?_) fun x hx => ?_
  · rw [htasks]
    split
    · rename_i hxt
      rw [hxt]
    · rfl
  · rw [htasks]
    split
    · rename_i hxt
      rw [hxt]
    · rfl
  · rw [htasks]
    split
    · rename_i hxt
      rw [hxt]
      refine ⟨fun _ => hlaw.childless (by rw [hnew]; decide), fun hst => ?_, fun _ => .inl hnone, fun hst => ?_,
        hlaw.linked, hlaw.notOwn⟩
      · cases hst
      · cases hst
    · exact h.lawful x hx

theorem Tree.collect {z : ℕ} (h : Tree k) (hcore : Core k) (hrun : k.me.state = .running)
    (hz : z ∈ k.me.children) (hzombie : (k.tasks z).state = .zombie) : Tree (k.collect z) := by
  obtain ⟨hzl, hzp⟩ := h.child k.current hcore.current_mem z hz
  have hzc : z ≠ k.current := by
    intro hzc
    have hme : (k.tasks k.current).state = .running := hrun
    rw [hzc, hme] at hzombie
    cases hzombie
  have hzi : z ≠ idle := by
    intro hzi
    rw [hzi, hcore.idleState] at hzombie
    cases hzombie
  have hrest := collect_rest k z
  have htasks := collect_tasks hzc
  have hparent := collect_parent hzc
  have hchildren := collect_children hzc
  generalize k.collect z = k' at hrest htasks hparent hchildren ⊢
  constructor
  · intro x hx p hp
    rw [hrest.taskList] at hx ⊢
    rw [hparent] at hp
    split at hp
    · cases hp
    · rename_i hxz
      obtain ⟨hpl, hc⟩ := h.parent x hx p hp
      refine ⟨hpl, ?_⟩
      rw [hchildren]
      split
      · rename_i hpc
        rw [hpc] at hc
        exact mem_listDel.mpr ⟨hc, hxz⟩
      · exact hc
  · intro p hp c hc
    rw [hrest.taskList] at hp ⊢
    rw [hchildren] at hc
    rw [hparent]
    by_cases hpc : p = k.current
    · rw [if_pos hpc, mem_listDel] at hc
      obtain ⟨hcl, hpar⟩ := h.child k.current hcore.current_mem c hc.1
      rw [if_neg hc.2, hpc]
      exact ⟨hcl, hpar⟩
    · rw [if_neg hpc] at hc
      obtain ⟨hcl, hpar⟩ := h.child p hp c hc
      have hcz : c ≠ z := by
        intro hcz
        rw [hcz, hzp] at hpar
        exact hpc (Option.some.inj hpar).symm
      rw [if_neg hcz]
      exact ⟨hcl, hpar⟩
  · intro x hx
    rw [hrest.taskList] at hx
    rw [htasks]
    by_cases hxz : x = z
    · rw [if_pos hxz]
      refine ⟨fun _ => (h.lawful z hzl).childless (by rw [hzombie]; decide), fun hst => ?_, fun _ => .inl rfl,
        fun _ => rfl, fun hp => absurd rfl hp, by simp⟩
      cases hst
    · rw [if_neg hxz]
      by_cases hxc : x = k.current
      · have hlaw := h.lawful k.current hcore.current_mem
        rw [if_pos hxc, hxc]
        refine lawful_of_alive ?_ hlaw.linked hlaw.notOwn
        show k.me.state ∉ _
        rw [hrun]
        decide
      · rw [if_neg hxc]
        exact h.lawful x hx
  · rw [hparent, if_neg (Ne.symm hzi)]
    exact h.idleParent
  · rw [hrest.freed, hrest.taskList, hrest.nextTask]
    exact h.freedGone
  · rw [hrest.freed]
    exact h.freedOnce

theorem Lawful.keepChildren {id : ℕ} {t : Task} (h : Lawful id t) (P : ℕ → Bool) :
    Lawful id (t.keepChildren P) := by
  refine ⟨fun hst => ?_, h.zombie, h.terminated, h.newborn, h.linked, h.notOwn⟩
  rw [Task.keepChildren, h.childless hst]
  rfl

/-- **The reaper** keeps the tree: what it frees has no children, and is unlinked from its parent. -/
theorem Tree.reaped (h : Tree k) (hcore : Core k) (hr : Reaped k k' k.taskList) : Tree k' := by
  have hmem : ∀ x, x ∈ k'.taskList ↔ x ∈ k.taskList ∧ ¬k.Doomed x := by
    intro x
    rw [hr.mem]
    exact ⟨fun hx => ⟨hx.1, fun hd => hx.2 ⟨hx.1, hd⟩⟩, fun hx => ⟨hx.1, fun hd => hx.2 hd.2⟩⟩
  have hchild : ∀ p c, c ∈ (k'.tasks p).children ↔ c ∈ (k.tasks p).children ∧
      ¬(c ∈ k.taskList ∧ k.Doomed c ∧ (k.tasks c).siblingLinked = true) := by
    intro p c
    rw [hr.tasks, Task.keepChildren, List.mem_filter]
    simp only [Bool.not_eq_true', decide_eq_false_iff_not]
  have hparent : ∀ x, (k'.tasks x).parent = (k.tasks x).parent := by
    intro x
    rw [hr.tasks]
    rfl
  constructor
  · intro t ht p hp
    rw [hparent] at hp
    obtain ⟨htl, htd⟩ := (hmem t).mp ht
    obtain ⟨hpl, hc⟩ := h.parent t htl p hp
    refine ⟨(hmem p).mpr ⟨hpl, fun hd => ?_⟩, (hchild p t).mpr ⟨hc, fun hd => htd hd.2.1⟩⟩
    rw [(h.lawful p hpl).childless (by rw [hd.2.2]; decide)] at hc
    cases hc
  · intro p hp c hc
    rw [hparent]
    obtain ⟨hc, hkeep⟩ := (hchild p c).mp hc
    obtain ⟨hcl, hpar⟩ := h.child p ((hmem p).mp hp).1 c hc
    refine ⟨(hmem c).mpr ⟨hcl, fun hd => hkeep ⟨hcl, hd, ?_⟩⟩, hpar⟩
    exact (h.lawful c hcl).linked (by rw [hpar]; simp)
  · intro t ht
    rw [hr.tasks]
    exact (h.lawful t ((hmem t).mp ht).1).keepChildren _
  · rw [hparent]
    exact h.idleParent
  · intro t ht
    rw [hr.freed, List.mem_append, List.mem_reverse, List.mem_filter, decide_eq_true_eq] at ht
    rw [hmem, hr.nextTask]
    rcases ht with ⟨htl, hd⟩ | ht
    · exact ⟨fun hx => hx.2 hd, hcore.fresh t htl⟩
    · exact ⟨fun hx => (h.freedGone t ht).1 hx.1, (h.freedGone t ht).2⟩
  · rw [hr.freed, List.nodup_append']
    refine ⟨List.nodup_reverse.mpr (hcore.nodup.filter _), h.freedOnce, fun t ht hf => ?_⟩
    rw [List.mem_reverse] at ht
    exact (h.freedGone t hf).1 (List.mem_of_mem_filter ht)

/-! ### Exit -/

theorem Lawful.childExited {id : ℕ} {t : Task} (h : Lawful id t) : Lawful id t.childExited := by
  rw [Task.childExited]
  split
  · exact lawful_of_alive (by simp [Task.woken]) h.linked h.notOwn
  · exact h

theorem Lawful.orphaned {id : ℕ} {t : Task} (h : Lawful id t) (hid : id ≠ idle) (hp : t.parent ≠ none) :
    Lawful id t.orphaned := by
  have hown : t.orphaned.parent ≠ some id := fun hc => hid (Option.some.inj hc).symm
  by_cases hz : t.state = .zombie
  · have hst : t.orphaned.state = .terminated := by rw [Task.orphaned, if_pos hz]
    refine ⟨fun _ => h.childless (by rw [hz]; decide), fun h' => ?_, fun _ => .inr rfl, fun h' => ?_,
      fun _ => rfl, hown⟩
    · exact absurd (hst.symm.trans h') (by decide)
    · exact absurd (hst.symm.trans h') (by decide)
  · have hst : t.orphaned.state = t.state := by rw [Task.orphaned, if_neg hz]
    refine ⟨fun h' => h.childless (hst ▸ h'), fun h' => absurd (hst.symm.trans h') hz, fun _ => .inr rfl,
      fun h' => ?_, fun _ => rfl, hown⟩
    exact absurd (h.newborn (hst.symm.trans h')) hp

theorem Tree.not_own_child (h : Tree k) (hcore : Core k) (hc : c ∈ k.me.children) :
    c ≠ k.current ∧ c ≠ idle := by
  have hp := (h.child k.current hcore.current_mem c hc).2
  refine ⟨fun hcc => ?_, fun hci => ?_⟩
  · rw [hcc] at hp
    exact (h.lawful k.current hcore.current_mem).notOwn hp
  · rw [hci, h.idleParent] at hp
    cases hp

/-- The links after an exit: the children of the current task are those of `idle`. -/
theorem Exited.links {code : ℤ} (he : Exited k k' code) (h : Tree k) (hcore : Core k) (x : ℕ) :
    (k'.tasks x).parent = (if x ∈ k.me.children then some Sched.idle else (k.tasks x).parent) ∧
    (k'.tasks x).children =
      if x = k.current then []
      else if x = Sched.idle then (k.tasks Sched.idle).children ++ k.me.children
      else (k.tasks x).children := by
  by_cases hxc : x = k.current
  · rw [hxc, if_neg (fun hc => (h.not_own_child hcore hc).1 rfl), if_pos rfl, he.me]
    exact ⟨rfl, rfl⟩
  · rw [if_neg hxc]
    by_cases hxi : x = Sched.idle
    · rw [hxi, if_neg (fun hc => (h.not_own_child hcore hc).2 rfl), if_pos rfl, he.idle]
      exact ⟨rfl, rfl⟩
    · rw [if_neg hxi]
      by_cases hp : k.me.parent = some x
      · rw [he.parent x hxc hxi hp, Task.childExited_parent, Task.childExited_children]
        split <;> exact ⟨rfl, rfl⟩
      · rw [he.others x hxc hxi hp]
        split <;> exact ⟨rfl, rfl⟩

/-- **An exit** keeps the tree: the children go to `idle`, and the zombies among them are left to the reaper. -/
theorem Tree.exited {code : ℤ} (h : Tree k) (hcore : Core k) (hcur : k.current ≠ idle)
    (he : Exited k k' code) : Tree k' := by
  have hcl := hcore.current_mem
  have hlawMe := h.lawful k.current hcl
  have hparent := fun x => (he.links h hcore x).1
  have hchildren := fun x => (he.links h hcore x).2
  constructor
  · intro t ht p hp
    rw [he.rest.taskList] at ht ⊢
    rw [hparent] at hp
    rw [hchildren]
    split at hp
    · rename_i htc
      obtain rfl := Option.some.inj hp
      refine ⟨hcore.idle_mem, ?_⟩
      rw [if_neg (Ne.symm hcur), if_pos rfl]
      exact List.mem_append_right _ htc
    · rename_i htc
      obtain ⟨hpl, hc⟩ := h.parent t ht p hp
      have hpc : p ≠ k.current := by
        intro hpc
        rw [hpc] at hc
        exact htc hc
      refine ⟨hpl, ?_⟩
      rw [if_neg hpc]
      split
      · rename_i hpi
        rw [hpi] at hc
        exact List.mem_append_left _ hc
      · exact hc
  · intro p hp c hc
    rw [he.rest.taskList] at hp ⊢
    rw [hchildren] at hc
    rw [hparent]
    split at hc
    · cases hc
    · rename_i hpc
      have hkept : ∀ q ∈ k.taskList, q ≠ k.current → c ∈ (k.tasks q).children →
          c ∈ k.taskList ∧ (if c ∈ k.me.children then some idle else (k.tasks c).parent) = some q := by
        intro q hq hqc hcq
        obtain ⟨hcl', hpar⟩ := h.child q hq c hcq
        have hnot : c ∉ k.me.children := by
          intro hcm
          have hpar' := (h.child k.current hcl c hcm).2
          rw [hpar'] at hpar
          exact hqc (Option.some.inj hpar).symm
        rw [if_neg hnot]
        exact ⟨hcl', hpar⟩
      split at hc
      · rename_i hpi
        rw [hpi]
        rcases List.mem_append.mp hc with hc | hc
        · exact hkept idle hcore.idle_mem (Ne.symm hcur) hc
        · rw [if_pos hc]
          exact ⟨(h.child k.current hcl c hc).1, rfl⟩
      · exact hkept p hp hpc hc
  · intro x hx
    rw [he.rest.taskList] at hx
    by_cases hxc : x = k.current
    · rw [hxc, he.me]
      refine ⟨fun _ => rfl, fun hst => ?_, fun hst => ?_, fun hst => ?_, hlawMe.linked, hlawMe.notOwn⟩
      · intro hun
        have hun' : Unparented k.me := hun
        simp only [if_pos hun'] at hst
        cases hst
      · by_contra hun
        have hun' : ¬Unparented k.me := hun
        simp only [if_neg hun'] at hst
        cases hst
      · simp only at hst
        split at hst
        · cases hst
        · cases hst
    · by_cases hxi : x = idle
      · rw [hxi, he.idle]
        have hlaw := h.lawful idle hcore.idle_mem
        refine lawful_of_alive ?_ hlaw.linked hlaw.notOwn
        show (k.tasks idle).state ∉ _
        rw [hcore.idleState]
        decide
      · have hbase : Lawful x (if x ∈ k.me.children then (k.tasks x).orphaned else k.tasks x) := by
          split
          · rename_i hxm
            refine (h.lawful x hx).orphaned hxi ?_
            rw [(h.child k.current hcl x hxm).2]
            simp
          · exact h.lawful x hx
        by_cases hp : k.me.parent = some x
        · rw [he.parent x hxc hxi hp]
          exact hbase.childExited
        · rw [he.others x hxc hxi hp]
          exact hbase
  · rw [hparent, if_neg (fun hc => (h.not_own_child hcore hc).2 rfl)]
    exact h.idleParent
  · rw [he.rest.freed, he.rest.taskList, he.rest.nextTask]
    exact h.freedGone
  · rw [he.rest.freed]
    exact h.freedOnce

/-- The exit closed form applies: the current task is neither its own child nor its own parent. -/
theorem Tree.exited_exitWith (h : Tree k) (hcore : Core k) (hcur : k.current ≠ idle) (code : ℤ) :
    Exited k (k.exitWith code) code := by
  have hcl := hcore.current_mem
  apply Kernel.exited_exitWith hcur
  · intro hc
    exact (h.lawful k.current hcl).notOwn (h.child k.current hcl k.current hc).2
  · intro hc
    have hp := (h.child k.current hcl idle hc).2
    rw [h.idleParent] at hp
    cases hp
  · exact (h.lawful k.current hcl).notOwn

/-- `idle` calling `task_exit` only stores its exit code. -/
theorem exitWith_idle (hcur : k.current = idle) (code : ℤ) :
    k.exitWith code = k.setTask idle fun t => { t with exitCode := code } := by
  rw [exitWith, taskExit]
  simp only []
  rw [if_pos (show (k.setTask k.current fun t => { t with exitCode := code }).current = idle from hcur), hcur]

theorem Tree.scheduler (h : Tree k) (hcore : Core k) : Tree k.scheduler := by
  obtain ⟨kr, hr, hcr, ⟨k', hsch, ht, -⟩ | ⟨n, k', hsch, hs, -, -, hwhy⟩⟩ := schedule_cases hcore
  · rw [Kernel.scheduler, hsch]
    exact (h.reaped hcore hr).same ht.calm.sameTree
  · rw [Kernel.scheduler, hsch]
    exact (h.reaped hcore hr).same (hs.sameTree (hcr.chosen_alive hwhy))

/-- Nothing is reaped when nobody is dead. -/
theorem Reaped.of_alive (hr : Reaped k k' k.taskList)
    (h : ∀ x ∈ k.taskList, (k.tasks x).state ≠ .terminated) :
    k'.taskList = k.taskList ∧ (∀ x, k'.tasks x = k.tasks x) ∧ k'.freed = k.freed := by
  have hno : ∀ x ∈ k.taskList, ¬k.Doomed x := fun x hx hd => h x hx hd.2.2
  refine ⟨?_, fun x => ?_, ?_⟩
  · rw [hr.taskList, List.filter_eq_self]
    intro x hx
    simp [hno x hx]
  · rw [hr.tasks]
    apply Task.keepChildren_eq_self
    intro c
    have hc : ¬(c ∈ k.taskList ∧ k.Doomed c ∧ (k.tasks c).siblingLinked = true) := fun hc => hno c hc.1 hc.2.1
    simp [hc]
  · rw [hr.freed, List.filter_eq_nil_iff.mpr]
    · rfl
    · intro x hx
      simp [hno x hx]

/-- When the current task cannot go on and only `n` is ready, `scheduler` switches to `n`. -/
theorem scheduler_to_only_ready (hcore : Core k) (halive : ∀ x ∈ k.taskList, (k.tasks x).state ≠ .terminated)
    (hme : k.me.state ≠ .running) (hn : n ∈ k.taskList) (hni : n ≠ idle) (hnc : n ≠ k.current)
    (hready : (k.tasks n).state = .ready) (honly : ∀ x ∈ k.taskList, (k.tasks x).state = .ready → x = n) :
    SameTree k k.scheduler ∧ k.scheduler.current = n ∧ (k.scheduler.tasks n).state = .running ∧
      ∀ x, x ≠ n → (k.scheduler.tasks x).state = (k.tasks x).state ∧
        (k.scheduler.tasks x).waitKind = (k.tasks x).waitKind := by
  obtain ⟨kr, hr, hcr, hcases⟩ := schedule_cases hcore
  obtain ⟨hlist, htasks, hfreed⟩ := hr.of_alive halive
  have hmer : kr.me.state ≠ .running := by
    rw [me, htasks, hr.current]
    exact hme
  have hwalk : ∀ x, x ∈ rotateFrom kr.current kr.taskList ↔ x ∈ k.taskList ∧ x ≠ k.current := by
    intro x
    rw [mem_rotateFrom hcr.nodup hcr.current_mem, hlist, hr.current]
  obtain ⟨k', -, -, hrun⟩ | ⟨m, k', hsch, hs, -, -, hwhy⟩ := hcases
  · exact absurd hrun hmer
  have hmn : m = n := by
    rcases hwhy with hnext | ⟨-, hnone, -⟩
    · obtain ⟨hst, -, p, q, hpq, -⟩ := nextReadyTask_some hnext
      have hmem : m ∈ rotateFrom kr.current kr.taskList := by
        rw [hpq]
        simp
      rw [htasks] at hst
      exact honly m ((hwalk m).mp hmem).1 hst
    · have hst := nextReadyTask_none hnone ((hwalk n).mpr ⟨hn, hnc⟩) hni
      rw [htasks] at hst
      exact absurd hready hst
  rw [hmn] at hs
  have hreaped : SameTree k kr :=
    ⟨hlist, hr.nextTask, hfreed, fun x => by rw [htasks], fun x _ => by rw [htasks], fun x _ => by rw [htasks]⟩
  have hswitch := hs.sameTree (by rw [htasks, hready]; decide)
  rw [Kernel.scheduler, hsch]
  refine ⟨hreaped.trans hswitch, hs.current, hs.next, fun x hx => ⟨?_, ?_⟩⟩
  · by_cases hxc : x = kr.current
    · rw [hxc, hs.cur, if_neg (fun hrun => hmer hrun.1), me, htasks]
    · rw [hs.others x hx hxc, htasks]
  · rw [hs.waitKind, htasks]

/-- Every step keeps the tree. -/
theorem Tree.exec {a : Action} (h : Tree k) (hcore : Core k) (hstep : k.Step a k') : Tree k' := by
  cases a with
  | taskCreate entryPoint isUser onHeap space =>
    obtain ⟨-, rfl⟩ := of_guard hstep
    exact h.taskCreate hcore entryPoint isUser onHeap space
  | spawnJoin t rip rsp =>
    obtain ⟨⟨hrun, -, ht, hnew⟩, rfl⟩ := of_guard hstep
    exact h.spawnJoin hcore hrun ht hnew rip rsp
  | spawnFail t =>
    obtain ⟨⟨-, ht, hnew⟩, rfl⟩ := of_guard hstep
    exact h.spawnFail ht hnew
  | exit code =>
    obtain ⟨-, rfl⟩ := of_guard hstep
    by_cases hcur : k.current = idle
    · rw [exitWith_idle hcur]
      have htasks : ∀ x, ∃ e, (k.setTask idle fun t => { t with exitCode := code }).tasks x =
          { k.tasks x with exitCode := e } := by
        intro x
        by_cases hxi : x = idle
        · rw [hxi, setTask_self]
          exact ⟨code, rfl⟩
        · rw [setTask_of_ne _ hxi]
          exact ⟨(k.tasks x).exitCode, rfl⟩
      refine h.of_lawful rfl rfl rfl (fun x => ?_) (fun x => ?_) fun x hx => ?_
      · obtain ⟨e, he⟩ := htasks x
        rw [he]
      · obtain ⟨e, he⟩ := htasks x
        rw [he]
      · obtain ⟨e, he⟩ := htasks x
        have hlaw := h.lawful x hx
        rw [he]
        exact ⟨hlaw.childless, hlaw.zombie, hlaw.terminated, hlaw.newborn, hlaw.linked, hlaw.notOwn⟩
    · exact h.exited hcore hcur (h.exited_exitWith hcore hcur code)
  | waitpid pid =>
    obtain ⟨⟨hrun, -⟩, rfl⟩ := of_guard hstep
    rcases taskWaitpid_cases k pid with ⟨hw, -⟩ | ⟨z, hz, -, hzombie, hw⟩ | ⟨hw, -⟩
    · rw [hw]
      exact h
    · rw [hw]
      exact h.collect hcore hrun hz hzombie
    · rw [hw]
      exact h
  | scheduler =>
    obtain rfl := Option.some.inj hstep
    exact h.scheduler hcore
  | entry | taskSetReady | block | sleep | wake | wakeAll | tick =>
    exact h.same (calm_of_exec hcore.idleUser hstep trivial).sameTree

end Kernel

open Kernel

theorem tree_kmain (b : BootTasks) : b.kmain.Tree where
  parent := by
    intro t ht p hp
    rw [b.kmain_taskList] at ht
    rcases List.mem_cons.mp ht with rfl | ht
    · cases hp
    · rw [List.mem_singleton.mp ht] at hp
      cases hp
  child := by
    intro p hp c hc
    rw [b.kmain_taskList] at hp
    rcases List.mem_cons.mp hp with rfl | hp
    · cases hc
    · rw [List.mem_singleton.mp hp] at hc
      cases hc
  lawful := by
    intro t ht
    rw [b.kmain_taskList] at ht
    rcases List.mem_cons.mp ht with rfl | ht
    · have hst : (b.kmain.tasks 1).state = .ready := rfl
      exact lawful_of_alive (by rw [hst]; decide) (fun _ => rfl) (by rintro ⟨⟩)
    · have hst : (b.kmain.tasks idle).state = .running := rfl
      rw [List.mem_singleton.mp ht]
      exact lawful_of_alive (by rw [hst]; decide) (fun _ => rfl) (by rintro ⟨⟩)
  idleParent := rfl
  freedGone := fun t ht => absurd ht List.not_mem_nil
  freedOnce := List.nodup_nil

theorem tree_of_reaches (b : BootTasks) {k : Kernel} (h : Reaches Step b.kmain k) : k.Core ∧ k.Tree :=
  h.invariant (I := fun k => k.Core ∧ k.Tree) ⟨core_kmain b, tree_kmain b⟩
    fun _ _ _ hk hstep => ⟨hk.1.exec hstep, hk.2.exec hk.1 hstep⟩

/-- **The process tree.**  In every reachable state a task is on the list of its parent and on no other, and a task
without a parent is on none; a parent is `idle` or in the list of tasks; a zombie has a parent that is neither
`idle` nor dead; and the reaper frees a task at most once, never the current one or `idle`, and never one that
has children. -/
theorem processTree_of_reaches (b : BootTasks) {k : Kernel} (h : Reaches Step b.kmain k) :
    (∀ t ∈ k.taskList, ∀ p, (k.tasks t).parent = some p →
      t ∈ (k.tasks p).children ∧ ∀ q ∈ k.taskList, t ∈ (k.tasks q).children → q = p) ∧
    (∀ t ∈ k.taskList, (k.tasks t).parent = none → ∀ q ∈ k.taskList, t ∉ (k.tasks q).children) ∧
    (∀ t ∈ k.taskList, ∀ p, (k.tasks t).parent = some p → p = idle ∨ p ∈ k.taskList) ∧
    (∀ t ∈ k.taskList, (k.tasks t).state = .zombie → ∃ p, (k.tasks t).parent = some p ∧ p ≠ idle ∧
      (k.tasks p).state ≠ .zombie ∧ (k.tasks p).state ≠ .terminated) ∧
    k.reapTerminated.freed.Nodup ∧
    ∀ t ∈ k.reapTerminated.freed, t ∉ k.freed → t ∈ k.taskList ∧ t ≠ k.current ∧ t ≠ idle ∧
      (k.tasks t).children = [] := by
  obtain ⟨hcore, htree⟩ := tree_of_reaches b h
  have hr := reaped_reapTerminated k
  refine ⟨fun t ht p hp => ⟨(htree.parent t ht p hp).2, fun q hq hc => ?_⟩,
    fun t ht hp q hq => htree.not_child hp hq, fun t ht p hp => .inr (htree.parent t ht p hp).1,
    fun t ht hz => ?_, (htree.reaped hcore hr).freedOnce, fun t ht hnew => ?_⟩
  · have hpar := (htree.child q hq t hc).2
    rw [hp] at hpar
    exact (Option.some.inj hpar).symm
  · have hun := (htree.lawful t ht).zombie hz
    cases hpar : (k.tasks t).parent with
    | none => exact absurd (.inl hpar) hun
    | some p =>
      obtain ⟨hpl, hc⟩ := htree.parent t ht p hpar
      -- a parent has children, so it is not dead
      have halive : (k.tasks p).state ∉ [TaskState.zombie, .terminated, .new] := by
        intro hst
        rw [(htree.lawful p hpl).childless hst] at hc
        cases hc
      refine ⟨p, rfl, fun hpi => hun (.inr (by rw [hpar, hpi])), fun hst => halive ?_, fun hst => halive ?_⟩
      · rw [hst]
        decide
      · rw [hst]
        decide
  · rw [hr.freed, List.mem_append, List.mem_reverse, List.mem_filter, decide_eq_true_eq] at ht
    rcases ht with ⟨htl, hd⟩ | ht
    · exact ⟨htl, hd.2.1, hd.1, (htree.lawful t htl).childless (by rw [hd.2.2]; decide)⟩
    · exact absurd ht hnew

/-- A page table and a kernel stack for a child. -/
def childSpace : AddrSpace := ⟨0x5000, 0x50000, by decide⟩

/-- `init` spawns a child and waits for it; the child exits with code 7. -/
def childExited : Kernel :=
  sampleBoot.kmain.last [.scheduler, .taskCreate 0 true true childSpace, .spawnJoin 2 0x400000 0x700000,
    .block .child, .scheduler, .exit 7]

/-- The child is a zombie, and its parent is `init`. -/
theorem processTree_of_reaches_childExited :
    (childExited.tasks 2).state = .zombie ∧ ∃ p, (childExited.tasks 2).parent = some p ∧ p ≠ idle ∧
      (childExited.tasks p).state ≠ .zombie ∧ (childExited.tasks p).state ≠ .terminated := by
  have hreach : Reaches Step sampleBoot.kmain childExited := (trace_last (by decide)).reaches .start
  obtain ⟨-, -, -, hzombie, -⟩ := processTree_of_reaches sampleBoot hreach
  exact ⟨by decide, hzombie 2 (by decide) (by decide)⟩

end LizardOs.Sched
