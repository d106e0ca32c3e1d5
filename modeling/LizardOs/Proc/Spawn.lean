import LizardOs.Mm.PageFree
import LizardOs.Proc.LoadImage

/-!
# `spawn` without memory

`spawn`, with `task_create` and what the next `reap_terminated` gives back for the task.  What the allocators are going
to answer is part of the call: `zalloc` gives the task or it does not, `buddy_alloc` gives a kernel stack or it does
not, and the frames for tables and pages may run out at any point.  `none` stands for a kernel that writes through the
null pointer of a failed allocation.
-/

namespace LizardOs.Proc

open LizardOs.Mm LizardOs.Mm.PageMem

/-- `1 << KSTACK_ORDER`. -/
def KSTACK_PAGES : ℕ := 4

/-- A call of `spawn`: what `vfs_open` gives for the path, the name at its end, the arguments, and what the allocators
are going to answer. -/
structure SpawnCall where
  file : Option ImageFile
  name : List UInt8
  argv : List (List UInt8)
  zalloc : Bool
  kstack : Option ℕ
  mem : PageMem
  kernelPml4 : ℕ
  pid : ℕ

/-- What a task owns, and whether it is terminated. -/
structure TaskMem where
  pml4 : ℕ
  kernel_stack : ℕ
  terminated : Bool

/-- What `spawn` leaves: its answer, the task if one was made, and the memory. -/
structure Spawned where
  rc : ℤ
  task : Option TaskMem
  mem : PageMem

namespace SpawnCall

/-- `task_create` for a user task: the tables, the kernel stack, the pages of the stack. -/
def taskCreate (c : SpawnCall) : Option (TaskMem × PageMem) :=
  match c.mem.pgtableCreate c.kernelPml4 with
  | none => none
  | some (pml4, s) =>
      match c.kstack with
      | none => none
      | some kstack =>
          (mapStack pml4 (List.range USER_STACK_PAGES) s).map fun s =>
            (⟨pml4, kstack + KSTACK_PAGES * PAGE_SIZE, false⟩, s)

/-- `spawn`. -/
def spawn (c : SpawnCall) : Option Spawned :=
  match c.file with
  | none => some ⟨-1, none, c.mem⟩
  | some file =>
      if c.zalloc = false then some ⟨-1, none, c.mem⟩
      else
        match c.taskCreate with
        | none => none
        | some (t, s) =>
            let argv := if c.argv = [] then [c.name] else c.argv
            match loadElf file t.pml4 0 userStackTop argv s with
            | none => none
            | some l =>
                if l.rc ≠ 0 then some ⟨-1, some { t with terminated := true }, l.mem⟩ else some ⟨c.pid, some t, l.mem⟩

end SpawnCall

/-- What `reap_terminated` gives back for a task: the kernel stack, and the frames of its address space. -/
def TaskMem.reap (t : TaskMem) (s : PageMem) : List ℕ × List ℕ :=
  if t.terminated = false then ([], [])
  else
    (if t.kernel_stack = 0 then [] else [t.kernel_stack - KSTACK_PAGES * PAGE_SIZE],
      (pgtableFreeTree t.pml4 s.entry).1)

/-- What the next `reap_terminated` gives back after a call. -/
def Spawned.reaped (r : Spawned) : List ℕ × List ℕ :=
  match r.task with
  | none => ([], [])
  | some t => t.reap r.mem

namespace SpawnCall

/-- An allocation fails: the one of the task, one of `task_create`, or one for the segments of the file. -/
def Starves (c : SpawnCall) : Prop :=
  ∃ file, c.file = some file ∧ (c.zalloc = false ∨ c.taskCreate = none ∨
    ∃ t s entry phdrs, c.taskCreate = some (t, s) ∧ programHeaders file = some (entry, phdrs) ∧
      loadSegments file t.pml4 phdrs s = none)

/-- The call is answered with -1, and after the next `reap_terminated` all that was taken is back. -/
def FailsCleanly (c : SpawnCall) : Prop :=
  ∃ r, c.spawn = some r ∧ r.rc = -1 ∧
    r.reaped.1 = (if r.task.isSome = true then c.kstack.toList else []) ∧
    ∃ taken, c.mem.pool = taken ++ r.mem.pool ∧ r.reaped.2.Perm taken

/-- **A failed allocation is an error of `spawn` exactly when it is the one of the task.**  Whatever `buddy_alloc` does
not give is written through. -/
theorem failsCleanly_iff {c : SpawnCall} (h : c.Starves) : c.FailsCleanly ↔ c.zalloc = false := by
  obtain ⟨file, hfile, hstarves⟩ := h
  constructor
  · rintro ⟨r, hr, -⟩
    by_contra hzalloc
    rw [spawn, hfile] at hr
    simp only [if_neg hzalloc] at hr
    obtain hzalloc' | hcreate | ⟨t, s, entry, phdrs, hcreate, hheaders, hload⟩ := hstarves
    · exact hzalloc hzalloc'
    · rw [hcreate] at hr
      cases hr
    · have helf : ∀ argv, loadElf file t.pml4 0 userStackTop argv s = none := by
        intro argv
        rw [loadElf, hheaders]
        simp only [hload]
      simp only [hcreate, helf] at hr
      cases hr
  · intro hzalloc
    refine ⟨⟨-1, none, c.mem⟩, ?_, rfl, rfl, [], rfl, List.Perm.refl _⟩
    rw [spawn, hfile]
    exact if_pos hzalloc

/-- A call for the image of two bytes, on the kernel with three hundred frames. -/
def twoBytesCall : SpawnCall where
  file := some (imageOf twoBytes)
  name := [0x61]
  argv := []
  zalloc := true
  kstack := some (HHDM_OFFSET + 0x800000)
  mem := bootMem
  kernelPml4 := bootPml4
  pid := 1

theorem failsCleanly_iff_noTask : FailsCleanly { twoBytesCall with zalloc := false } :=
  (failsCleanly_iff ⟨imageOf twoBytes, rfl, .inl rfl⟩).mpr rfl

/-- Without a frame for the tables of the task, the kernel clears the page at address 0. -/
theorem not_failsCleanly_noTable :
    Starves { twoBytesCall with mem := { bootMem with pool := [] } } ∧
      ¬FailsCleanly { twoBytesCall with mem := { bootMem with pool := [] } } := by
  refine ⟨⟨imageOf twoBytes, rfl, .inr (.inl rfl)⟩, fun ⟨r, hr, _⟩ => ?_⟩
  have hnone : spawn { twoBytesCall with mem := { bootMem with pool := [] } } = none := rfl
  rw [hnone] at hr
  cases hr

end SpawnCall

end LizardOs.Proc
