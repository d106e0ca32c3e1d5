import LizardOs.Nolibc.ListHead
import LizardOs.Sched.Scheduler

/-!
# The task list as pointers

In memory the tasks are a ring of the `list_head`s that stand in them and of `task_list`.  A call of `scheduler` goes twice
over it: the reaper unlinks dead tasks as it meets them, and `next_ready_task` walks from the current task to the end and
from the start to the current task.  Both find in the ring what the kernel's state has as a list (`scheduler_on_ring`).
-/

namespace LizardOs.Sched

open LizardOs.Lib LizardOs.Nolibc

/-- `task_list`, or the `list` of a task. -/
abbrev TaskNode := Option ℕ

namespace Kernel

/-- `next_ready_task` takes such a task. -/
def readyOther (k : Kernel) (t : ℕ) : Bool := decide ((k.tasks t).state = .ready ∧ t ≠ idle)

/-- A loop of `next_ready_task`: from a node up to `stop`.  `task_list` itself is in no task. -/
def readyWalk (k : Kernel) (m : Links TaskNode) (stop : TaskNode) : ℕ → Option TaskNode → Option (Option ℕ)
  | 0, _ => none
  | _, none => none
  | n + 1, some pos =>
      if pos = stop then some none
      else
        match pos with
        | none => none
        | some t => if k.readyOther t then some (some t) else readyWalk k m stop n (m.next pos)

/-- `next_ready_task` on the ring. -/
def nextReadyWalk (fuel : ℕ) (k : Kernel) (m : Links TaskNode) : Option (Option ℕ) :=
  match k.readyWalk m none fuel (m.next (some k.current)) with
  | none => none
  | some (some t) => some (some t)
  | some none => k.readyWalk m (some k.current) fuel (m.next none)

/-- The loop of `reap_terminated` on the ring, with the tasks that it unlinks. -/
def reapLinks (fuel : ℕ) (k : Kernel) (m : Links TaskNode) : Option (Links TaskNode × List TaskNode) :=
  listForEach fuel none (fun x s => if x.any fun t => decide (k.Doomed t) then
    (Nolibc.listDel x s.1).map fun m => (m, s.2 ++ [x]) else some s) (m, [])

section

variable {k : Kernel} {m : Links TaskNode} {fuel : ℕ}

/-- The walk along a stretch of tasks finds the first one that is ready. -/
theorem readyWalk_stretch {ts : List ℕ} {stop : TaskNode} (hchain : (ts.map some ++ [stop]).IsChain m.Linked)
    (hstop : stop ∉ ts.map some) (hfuel : ts.length < fuel) :
    k.readyWalk m stop fuel (some ((ts.map some).headD stop)) = some (ts.find? k.readyOther) := by
  induction ts generalizing fuel with
  | nil =>
    obtain ⟨n, rfl⟩ : ∃ n, fuel = n + 1 := ⟨fuel - 1, by omega⟩
    exact if_pos rfl
  | cons t ts ih =>
    obtain ⟨n, rfl⟩ : ∃ n, fuel = n + 1 := ⟨fuel - 1, by omega⟩
    have hne : some t ≠ stop := fun h => hstop (h ▸ .head _)
    have hnext : m.next (some t) = some ((ts.map some).headD stop) := by
      cases ts with
      | nil => exact (List.isChain_pair.mp hchain).1
      | cons u ts => exact (List.isChain_cons_cons.mp hchain).1.1
    have hrest := ih hchain.tail (fun h => hstop (.tail _ h)) (Nat.lt_of_succ_lt_succ hfuel)
    show k.readyWalk m stop (n + 1) (some (some t)) = _
    rw [readyWalk, if_neg hne, hnext, hrest, List.find?_cons]
    cases k.readyOther t
    · rfl
    · rfl

/-- `next_ready_task` finds in the ring what it finds in the list. -/
theorem nextReadyWalk_eq (hr : m.Ring none (k.taskList.map some)) (hcur : k.current ∈ k.taskList)
    (hfuel : k.taskList.length < fuel) : k.nextReadyWalk fuel m = some k.nextReadyTask := by
  obtain ⟨l, r, hlist⟩ := List.append_of_mem hcur
  have hmap : k.taskList.map some = (l.map some ++ [some k.current]) ++ r.map some := by
    rw [hlist, List.map_append, List.map_cons, List.append_assoc]
    rfl
  have hnodup := (List.nodup_cons.mp hr.nodup).2
  rw [hmap] at hr hnodup
  obtain ⟨hleft, hright, hmid⟩ := hr.split
  rw [List.getLastD_concat] at hmid
  have hcur' : some k.current ∉ l.map some := fun h =>
    (List.nodup_append.mp (List.nodup_append.mp hnodup).1).2.2 _ h _ (List.mem_singleton_self _) rfl
  have hlen : l.length < fuel ∧ r.length < fuel := by
    rw [hlist, List.length_append, List.length_cons] at hfuel
    omega
  have hnone : ∀ ts : List ℕ, (none : TaskNode) ∉ ts.map some := by
    intro ts h
    obtain ⟨t, -, ht⟩ := List.mem_map.mp h
    cases ht
  have hfirst : m.next none = some ((l.map some).headD (some k.current)) := by
    refine hr.ends.1.trans ?_
    cases l
    · rfl
    · rfl
  have hcurL : k.current ∉ l := fun h => hcur' (List.mem_map_of_mem h)
  rw [nextReadyWalk, hmid.1, readyWalk_stretch hright (hnone r) hlen.2, hfirst,
    readyWalk_stretch hleft.tail hcur' hlen.1, nextReadyTask, hlist, rotateFrom_append hcurL, List.find?_append]
  show _ = some ((r.find? k.readyOther).or (l.find? k.readyOther))
  cases r.find? k.readyOther
  · rfl
  · rfl

/-- **A call of `scheduler` on the ring**: the loop of the reaper unlinks exactly the tasks that it frees, while it goes
over them, and leaves the ring of the others; and from there `next_ready_task` finds the task that comes next in the list.
No null pointer is followed. -/
theorem scheduler_on_ring (hr : m.Ring none (k.taskList.map some)) (hcur : k.current ∈ k.taskList)
    (hfuel : k.taskList.length < fuel) : ∃ m',
      k.reapLinks fuel m = some (m', (k.taskList.filter fun t => decide (k.Doomed t)).map some) ∧
      k.reapTerminated.freed = (k.taskList.filter fun t => decide (k.Doomed t)).reverse ++ k.freed ∧
      m'.Ring none (k.reapTerminated.taskList.map some) ∧
      k.reapTerminated.nextReadyWalk fuel m' = some k.reapTerminated.nextReadyTask := by
  have hreaped := reaped_reapTerminated k
  have hlists : Lists (fun _ : Unit => none) (fun _ => k.taskList.map some) m :=
    ⟨fun _ => hr, fun i j hij => absurd rfl hij⟩
  have hlen : (k.taskList.map some).length < fuel := by rwa [List.length_map]
  obtain ⟨m', hloop, hend⟩ := listForEach_unlinks hlists () hlen fun x => x.any fun t => decide (k.Doomed t)
  have hkept : (k.taskList.map some).filter (fun x => !x.any fun t => decide (k.Doomed t)) =
      k.reapTerminated.taskList.map some := by
    rw [hreaped.taskList, List.filter_map]
    refine congrArg (List.map some) (List.filter_congr fun t ht => ?_)
    show (!decide (k.Doomed t)) = !decide (t ∈ k.taskList ∧ k.Doomed t)
    rw [decide_eq_decide.mpr (and_iff_right ht)]
  have hgone : (k.taskList.map some).filter (fun x => x.any fun t => decide (k.Doomed t)) =
      (k.taskList.filter fun t => decide (k.Doomed t)).map some := by
    rw [List.filter_map]
    rfl
  have hring := hend.ring ()
  rw [Function.update_self, hkept] at hring
  rw [hgone] at hloop
  have hcur' : k.reapTerminated.current ∈ k.reapTerminated.taskList := by
    rw [hreaped.current, hreaped.taskList, List.mem_filter]
    refine ⟨hcur, ?_⟩
    rw [Bool.not_eq_true', decide_eq_false_iff_not]
    exact fun h => h.2.2.1 rfl
  have hfuel' : k.reapTerminated.taskList.length < fuel := by
    rw [hreaped.taskList]
    exact (List.length_filter_le _ _).trans_lt hfuel
  exact ⟨m', hloop, hreaped.freed, hring, nextReadyWalk_eq hring hcur' hfuel'⟩

end

/-- Three tasks: the first one of the list is dead, the second one is the current one. -/
def oneDead : Kernel :=
  { sampleBoot.none with
    tasks := fun t => { sampleBoot.none.tasks t with state := if t = 2 then .terminated else .ready }
    taskList := [2, 1, 3]
    current := 1 }

/-- Their ring. -/
def oneDeadLinks : Links TaskNode where
  next x := if x = none then some (some 2) else if x = some 2 then some (some 1) else if x = some 1 then some (some 3)
    else some none
  prev x := if x = none then some (some 3) else if x = some 2 then some none else if x = some 1 then some (some 2)
    else some (some 1)

theorem scheduler_on_ring_oneDead : ∃ m', oneDead.reapLinks 4 oneDeadLinks = some (m', [some 2]) ∧
    oneDead.reapTerminated.nextReadyWalk 4 m' = some (some 3) := by
  have hring : oneDeadLinks.Ring none (oneDead.taskList.map some) := by
    refine ⟨by decide, ?_⟩
    exact List.isChain_cons_cons.mpr ⟨⟨rfl, rfl⟩, List.isChain_cons_cons.mpr ⟨⟨rfl, rfl⟩,
      List.isChain_cons_cons.mpr ⟨⟨rfl, rfl⟩, List.isChain_pair.mpr ⟨rfl, rfl⟩⟩⟩⟩
  have hcur : oneDead.current ∈ oneDead.taskList := by decide
  have hlen : oneDead.taskList.length < 4 := by decide
  obtain ⟨m', hloop, -, -, hwalk⟩ := scheduler_on_ring hring hcur hlen
  have hnext : oneDead.reapTerminated.nextReadyTask = some 3 := by decide
  rw [hnext] at hwalk
  exact ⟨m', hloop, hwalk⟩

end Kernel

end LizardOs.Sched
