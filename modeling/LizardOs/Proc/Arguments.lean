import LizardOs.Fat.FileBytes
import LizardOs.Proc.Spawn
import LizardOs.Proc.StartupStack
import LizardOs.User.Shell
import LizardOs.Vfs.PathFolding

/-!
# The arguments of a program

`sys_spawn` copies the strings of `argv` out of the memory of the caller, at most 32 of them and 1024 bytes, and
`spawn` copies them on to the stack of the new program.  Whatever passes the checks of the first copy fits the second,
so the program finds the arguments that it was spawned with.
-/

namespace LizardOs.Proc

open LizardOs.Lib LizardOs.Mm LizardOs.Mm.PageMem LizardOs.Vfs LizardOs.Syscall LizardOs.User.Shell
open LizardOs.Tty (LINE_MAX)

/-- The loop of `spawn` over its path, with the name so far: what is behind the last slash. -/
def baseName : Name → Name → Name
  | name, [] => name
  | name, c :: p => baseName (if c = 47 then p else name) p

/-- `sys_spawn`: the answer, the task if one was made, and the memory.  `vfsOpen` gives the program for a path, and `c`
says what the allocators are going to answer. -/
def sysSpawn (vfsOpen : Name → Option ImageFile) (cwd : Name) (mem : Buf) (upath uargv : UInt64) (c : SpawnCall) :
    Option (ℤ × Option TaskMem × PageMem) :=
  match spawnRequest cwd mem upath uargv with
  | .error e => some (e, none, c.mem)
  | .ok (abspath, argv) =>
      (SpawnCall.spawn { c with file := vfsOpen abspath, name := baseName abspath abspath, argv := argv }).map
        fun r => (if r.rc < 0 then -ENOENT else r.rc, r.task, r.mem)

/-! ### What `sys_spawn` accepts -/

/-- The strings of an array of pointers in the lower part of the address space, up to its null. -/
def ArgvAt (mem : Buf) : ℕ → List Name → Prop
  | slot, [] => 0 < slot ∧ slot < BOOT_HHDM_BASE ∧ loadLe mem slot 8 = 0
  | slot, arg :: rest =>
      (0 < slot ∧ slot < BOOT_HHDM_BASE ∧
        ∃ p, loadLe mem slot 8 = p ∧ 0 < p ∧ p < BOOT_HHDM_BASE ∧ TextAt mem p arg) ∧ ArgvAt mem (slot + 8) rest

theorem userPtrOk_iff {p : UInt64} {n : ℕ} (hn : n ≤ 1024) :
    userPtrOk p (UInt64.ofNat n) = true ↔ 0 < p.toNat ∧ p.toNat < BOOT_HHDM_BASE := by
  have hlen : (UInt64.ofNat n).toNat = n := by
    rw [UInt64.toNat_ofNat']
    omega
  have hlong : ¬long (UInt64.ofNat n) < 0 := by
    rw [long, hlen, asI64_of_lt (by omega)]
    omega
  have hzero : p = 0 ↔ p.toNat = 0 := ⟨fun h => h ▸ rfl, fun h => UInt64.toNat_inj.mp h⟩
  rw [userPtrOk]
  by_cases hp : p.toNat = 0
  · rw [if_pos (.inl (hzero.mpr hp))]
    simp [hp]
  rw [if_neg (by rintro (h | h); exacts [hp (hzero.mp h), hlong h])]
  by_cases hlow : BOOT_HHDM_BASE ≤ p.toNat
  · rw [if_pos hlow]
    simp [Nat.not_lt.mpr hlow]
  rw [if_neg hlow]
  have hbase : BOOT_HHDM_BASE = 0xFFFF800000000000 := rfl
  have hnowrap : ¬p + UInt64.ofNat n < p := by
    rw [UInt64.lt_iff_toNat_lt, UInt64.toNat_add, hlen]
    omega
  rw [decide_eq_false hnowrap]
  simp [Nat.pos_of_ne_zero hp, Nat.not_le.mp hlow]

theorem copyUserStr_eq_ok {mem : Buf} {uptr : UInt64} {n : ℕ} {arg : Name} (hn : n ≤ 1024) :
    copyUserStr mem uptr n = .ok arg ↔
      (0 < uptr.toNat ∧ uptr.toNat < BOOT_HHDM_BASE) ∧ arg.length < n ∧ TextAt mem uptr.toNat arg := by
  rw [copyUserStr]
  by_cases hok : userPtrOk uptr (UInt64.ofNat n) = true
  · rw [if_neg (by rw [hok]; decide)]
    have hplace := (userPtrOk_iff hn).mp hok
    constructor
    · intro h
      cases hstr : userStr mem uptr.toNat n with
      | none =>
        rw [hstr] at h
        cases h
      | some s =>
        rw [hstr] at h
        obtain rfl := Except.ok.inj h
        have hlen := (userStr_eq_some.mp hstr).1
        exact ⟨hplace, hlen, (textAt_iff hlen).mp hstr⟩
    · rintro ⟨-, hlen, htext⟩
      rw [(textAt_iff hlen).mpr htext]
  · rw [if_pos (by simpa using hok)]
    constructor
    · intro h
      cases h
    · rintro ⟨hplace, -⟩
      exact absurd ((userPtrOk_iff hn).mpr hplace) hok

/-- The pointer that a slot gives, where the slots do not wrap around. -/
theorem argSlot_eq_ok {mem : Buf} {uargv uptr : UInt64} {argc : ℕ} (hwrap : uargv.toNat + 8 * argc < 2 ^ 64) :
    argSlot mem uargv argc = .ok uptr ↔ (0 < uargv.toNat + 8 * argc ∧ uargv.toNat + 8 * argc < BOOT_HHDM_BASE) ∧
      loadLe mem (uargv.toNat + 8 * argc) 8 = uptr.toNat := by
  have hslot : (uargv + UInt64.ofNat (8 * argc)).toNat = uargv.toNat + 8 * argc := by
    rw [UInt64.toNat_add, UInt64.toNat_ofNat']
    omega
  have hload : loadLe mem (uargv.toNat + 8 * argc) 8 < 2 ^ 64 := (loadLe_lt _ _ 8).trans_eq (by norm_num)
  have hok := userPtrOk_iff (p := uargv + UInt64.ofNat (8 * argc)) (n := 8) (by decide)
  rw [hslot] at hok
  rw [argSlot, hslot]
  by_cases hplace : 0 < uargv.toNat + 8 * argc ∧ uargv.toNat + 8 * argc < BOOT_HHDM_BASE
  · have htrue : userPtrOk (uargv + UInt64.ofNat (8 * argc)) 8 = true := hok.mpr hplace
    rw [if_neg (by rw [htrue]; decide)]
    constructor
    · intro h
      obtain rfl := Except.ok.inj h
      rw [UInt64.toNat_ofNat', Nat.mod_eq_of_lt hload]
      exact ⟨hplace, rfl⟩
    · rintro ⟨-, h⟩
      rw [h, UInt64.ofNat_toNat]
  · have hfalse : userPtrOk (uargv + UInt64.ofNat (8 * argc)) 8 = false := by
      rw [Bool.eq_false_iff]
      exact fun h => hplace (hok.mp h)
    rw [if_pos hfalse]
    exact ⟨fun h => (by cases h), fun h => absurd h.1 hplace⟩

section

variable {mem : Buf} {uargv uptr : UInt64} {argc : ℕ} {argv : List Name}

/-- A slot that cannot be read is none of an array. -/
theorem not_argvAt_of_error {e : ℤ} (hwrap : uargv.toNat + 8 * argc < 2 ^ 64)
    (he : argSlot mem uargv argc = .error e) : ¬ArgvAt mem (uargv.toNat + 8 * argc) argv := by
  intro hat
  have hplace : 0 < uargv.toNat + 8 * argc ∧ uargv.toNat + 8 * argc < BOOT_HHDM_BASE := by
    cases argv with
    | nil => exact ⟨hat.1, hat.2.1⟩
    | cons arg rest => exact ⟨hat.1.1, hat.1.2.1⟩
  have hload : loadLe mem (uargv.toNat + 8 * argc) 8 < 2 ^ 64 := (loadLe_lt _ _ 8).trans_eq (by norm_num)
  have hok : argSlot mem uargv argc = .ok (UInt64.ofNat (loadLe mem (uargv.toNat + 8 * argc) 8)) :=
    (argSlot_eq_ok hwrap).mpr ⟨hplace, by rw [UInt64.toNat_ofNat', Nat.mod_eq_of_lt hload]⟩
  rw [hok] at he
  cases he

/-- A null pointer ends the array. -/
theorem argvAt_of_null (hwrap : uargv.toNat + 8 * argc < 2 ^ 64) (hptr : argSlot mem uargv argc = .ok uptr)
    (h0 : uptr = 0) : ArgvAt mem (uargv.toNat + 8 * argc) argv ↔ argv = [] := by
  obtain ⟨hplace, hload⟩ := (argSlot_eq_ok hwrap).mp hptr
  rw [h0] at hload
  constructor
  · intro hat
    cases argv with
    | nil => rfl
    | cons arg rest =>
      obtain ⟨⟨-, -, p, hp, hpos, -⟩, -⟩ := hat
      exact absurd (hp.symm.trans hload) (Nat.ne_of_gt hpos)
  · rintro rfl
    exact ⟨hplace.1, hplace.2, hload⟩

/-- Another pointer leads to the next string. -/
theorem argvAt_of_pointer (hwrap : uargv.toNat + 8 * argc < 2 ^ 64) (hptr : argSlot mem uargv argc = .ok uptr)
    (h0 : uptr ≠ 0) : ArgvAt mem (uargv.toNat + 8 * argc) argv ↔ ∃ arg rest, argv = arg :: rest ∧
      (0 < uptr.toNat ∧ uptr.toNat < BOOT_HHDM_BASE) ∧ TextAt mem uptr.toNat arg ∧
        ArgvAt mem (uargv.toNat + 8 * (argc + 1)) rest := by
  obtain ⟨hplace, hload⟩ := (argSlot_eq_ok hwrap).mp hptr
  have hpos : 0 < uptr.toNat := Nat.pos_of_ne_zero fun h => h0 (UInt64.toNat_inj.mp h)
  rw [Nat.mul_succ, ← Nat.add_assoc]
  constructor
  · intro hat
    cases argv with
    | nil => exact absurd (hload.symm.trans hat.2.2) (Nat.ne_of_gt hpos)
    | cons arg rest =>
      obtain ⟨⟨-, -, p, hp, hp0, hlow, htext⟩, hrest⟩ := hat
      obtain rfl : p = uptr.toNat := hp.symm.trans hload
      exact ⟨arg, rest, rfl, ⟨hp0, hlow⟩, htext, hrest⟩
  · rintro ⟨arg, rest, rfl, ⟨hp0, hlow⟩, htext, hrest⟩
    exact ⟨⟨hplace.1, hplace.2, uptr.toNat, hload, hp0, hlow, htext⟩, hrest⟩

end

/-- **The copy loop accepts** exactly the arrays of as many strings as are left, when all of them fit the buffer. -/
theorem copyArgs_eq_ok {mem : Buf} {uargv : UInt64} {left argc off : ℕ} {argv : List Name}
    (hwrap : uargv.toNat + 8 * (argc + left) < 2 ^ 64) (hoff : off ≤ ARGBUF_SIZE) :
    copyArgs mem uargv left argc off = .ok argv ↔
      argv.length ≤ left ∧ off + stringRoom argv ≤ ARGBUF_SIZE ∧ ArgvAt mem (uargv.toNat + 8 * argc) argv := by
  induction left generalizing argc off argv with
  | zero =>
    have hslot : uargv.toNat + 8 * argc < 2 ^ 64 := by omega
    rw [copyArgs]
    cases hptr : argSlot mem uargv argc with
    | error e => simp [not_argvAt_of_error hslot hptr]
    | ok uptr =>
      by_cases h0 : uptr = 0
      · simp only [if_pos h0, argvAt_of_null hslot hptr h0, Except.ok.injEq]
        constructor
        · rintro rfl
          exact ⟨le_rfl, hoff, rfl⟩
        · exact fun h => h.2.2.symm
      · simp only [if_neg h0, argvAt_of_pointer hslot hptr h0, reduceCtorEq, false_iff]
        rintro ⟨hlen, -, arg, rest, rfl, -⟩
        exact absurd hlen (Nat.not_succ_le_zero _)
  | succ left ih =>
    have hslot : uargv.toNat + 8 * argc < 2 ^ 64 := by omega
    rw [copyArgs]
    cases hptr : argSlot mem uargv argc with
    | error e => simp [not_argvAt_of_error hslot hptr]
    | ok uptr =>
      by_cases h0 : uptr = 0
      · simp only [if_pos h0, argvAt_of_null hslot hptr h0, Except.ok.injEq]
        constructor
        · rintro rfl
          exact ⟨Nat.zero_le _, hoff, rfl⟩
        · exact fun h => h.2.2.symm
      simp only [if_neg h0, argvAt_of_pointer hslot hptr h0]
      have hcons : ∀ (arg : Name) rest, stringRoom (arg :: rest) = arg.length + 1 + stringRoom rest := fun _ _ =>
        List.sum_cons
      have hcopy : ∀ arg, copyUserStr mem uptr (ARGBUF_SIZE - off) = .ok arg ↔
          (0 < uptr.toNat ∧ uptr.toNat < BOOT_HHDM_BASE) ∧ arg.length < ARGBUF_SIZE - off ∧
            TextAt mem uptr.toNat arg := fun arg => copyUserStr_eq_ok (Nat.sub_le _ _)
      constructor
      · intro h
        cases harg : copyUserStr mem uptr (ARGBUF_SIZE - off) with
        | error e =>
          rw [harg] at h
          cases h
        | ok arg =>
          obtain ⟨hplace, hlen, htext⟩ := (hcopy arg).mp harg
          rw [harg] at h
          cases hrest : copyArgs mem uargv left (argc + 1) (off + arg.length + 1) with
          | error e =>
            simp only [hrest] at h
            cases h
          | ok rest =>
            simp only [hrest] at h
            obtain rfl := Except.ok.inj h
            obtain ⟨hcount, hroom, hat⟩ := (ih (by omega) (by omega)).mp hrest
            rw [hcons]
            exact ⟨Nat.succ_le_succ hcount, by omega, arg, rest, rfl, hplace, htext, hat⟩
      · rintro ⟨hcount, hroom, arg, rest, rfl, hplace, htext, hat⟩
        rw [hcons] at hroom
        have hrest : copyArgs mem uargv left (argc + 1) (off + arg.length + 1) = .ok rest :=
          (ih (by omega) (by omega)).mpr ⟨Nat.le_of_succ_le_succ hcount, by omega, hat⟩
        rw [(hcopy arg).mpr ⟨hplace, by omega, htext⟩]
        simp only [hrest]

/-- **`sys_spawn` accepts** a null `argv`, and an array of at most 32 strings that take 1024 bytes at most. -/
theorem spawnArgs_eq_ok {mem : Buf} {uargv : UInt64} {argv : List Name} :
    spawnArgs mem uargv = .ok argv ↔ (uargv = 0 ∧ argv = []) ∨
      (argv.length ≤ SPAWN_MAX_ARGS ∧ stringRoom argv ≤ ARGBUF_SIZE ∧ ArgvAt mem uargv.toNat argv) := by
  have hlow : ∀ argv, ArgvAt mem uargv.toNat argv → 0 < uargv.toNat ∧ uargv.toNat < BOOT_HHDM_BASE := by
    intro argv hat
    cases argv with
    | nil => exact ⟨hat.1, hat.2.1⟩
    | cons arg rest => exact ⟨hat.1.1, hat.1.2.1⟩
  rw [spawnArgs]
  by_cases h0 : uargv = 0
  · rw [if_pos h0, Except.ok.injEq]
    constructor
    · exact fun h => .inl ⟨h0, h.symm⟩
    · rintro (⟨-, rfl⟩ | ⟨-, -, hat⟩)
      · rfl
      · exact absurd (hlow argv hat).1 (by rw [h0]; decide)
  rw [if_neg h0]
  by_cases hbase : uargv.toNat < BOOT_HHDM_BASE
  · have hwrap : uargv.toNat + 8 * (0 + SPAWN_MAX_ARGS) < 2 ^ 64 := by
      rw [BOOT_HHDM_BASE] at hbase
      rw [SPAWN_MAX_ARGS]
      omega
    rw [copyArgs_eq_ok hwrap (Nat.zero_le _), Nat.zero_add, Nat.mul_zero, Nat.add_zero]
    exact ⟨.inr, fun h => h.resolve_left fun h => h0 h.1⟩
  · -- the first slot is in the kernel half
    have hslot : argSlot mem uargv 0 = .error (-EFAULT) := by
      have hbad : userPtrOk (uargv + UInt64.ofNat (8 * 0)) 8 = false := by
        rw [Bool.eq_false_iff]
        intro hok
        have hplace := ((userPtrOk_iff (n := 8) (by decide)).mp hok).2
        rw [Nat.mul_zero, UInt64.toNat_add] at hplace
        simp only [UInt64.toNat_ofNat', Nat.zero_mod, Nat.add_zero] at hplace
        rw [Nat.mod_eq_of_lt uargv.toNat_lt] at hplace
        exact hbase hplace
      rw [argSlot]
      simp only [hbad, if_true]
    have hcopy : copyArgs mem uargv SPAWN_MAX_ARGS 0 0 = .error (-EFAULT) := by
      rw [SPAWN_MAX_ARGS, copyArgs, hslot]
    rw [hcopy]
    constructor
    · intro h
      cases h
    · rintro (⟨h, -⟩ | ⟨-, -, hat⟩)
      · exact absurd h h0
      · exact absurd (hlow argv hat).2 hbase

/-! ### What the program finds -/

theorem loadElf_startup {f : ImageFile} {s₀ s : PageMem} {kernelPml4 pml4 : ℕ} {argv : List Name} {l : Loaded}
    (hpool : s₀.FreshPool kernelPml4) (hspace : taskSpace kernelPml4 s₀ = some (pml4, s)) (himage : UserImage f)
    (hcount : argv.length ≤ 32) (hroom : stringRoom argv ≤ 1024)
    (hload : loadElf f pml4 0 userStackTop argv s = some l) (hrc : l.rc = 0) :
    ∃ argp, StartupBlock l.mem pml4 l.rsp argv argp := by
  have htop : userStackTop = 0x700000040000 := by decide
  obtain ⟨hs, hmapped⟩ := userSpace_of_taskSpace hpool hspace
  rw [loadElf] at hload
  rw [UserImage] at himage
  cases hheaders : programHeaders f with
  | none =>
    rw [hheaders] at hload
    obtain rfl := Option.some.inj hload
    exact absurd hrc (show ¬(-1 : ℤ) = 0 by decide)
  | some x =>
    obtain ⟨entry, phdrs⟩ := x
    rw [hheaders] at hload himage
    simp only [] at hload himage
    cases hsegs : loadSegments f pml4 phdrs s with
    | none =>
      rw [hsegs] at hload
      cases hload
    | some y =>
      obtain ⟨ok, pages, s₁⟩ := y
      rw [hsegs] at hload
      cases ok with
      | false =>
        obtain rfl := Option.some.inj hload
        exact absurd hrc (show ¬(-1 : ℤ) = 0 by decide)
      | true =>
        have huser := (loadSegments_spec (loadOk_of_taskSpace hpool hspace) hsegs).1.mpr himage
        obtain ⟨hs₁, hkeeps⟩ := hs.loadSegments hsegs huser
        have hstack : ∀ va, OnStack va → Mapped s₁ pml4 va := by
          intro va hva
          have hlow : va < 2 ^ 47 := by
            have hhigh := hva.2
            omega
          exact hkeeps va (tableIndex_user hlow) ((hmapped va hlow).mpr hva)
        have htake : argv.take MAX_ARGS = argv := List.take_of_length_le hcount
        have hfit : stackRoom (argv.take MAX_ARGS) ≤ USER_STACK_PAGES * PAGE_SIZE := by
          have hsize : USER_STACK_PAGES * PAGE_SIZE = 0x40000 := by decide
          rw [htake, stackRoom, hsize]
          omega
        obtain ⟨rsp, argp, s₂, hsetup, -, -, hblock⟩ := setupUserStack_spec hs₁ hstack hfit
        rw [htake] at hblock
        simp only [hsetup] at hload
        obtain rfl := Option.some.inj hload
        exact ⟨argp, hblock⟩

namespace SpawnCall

variable {c : SpawnCall}

/-- The arguments of the new program: those of the call, or the name of the program. -/
def args (c : SpawnCall) : List Name := if c.argv = [] then [c.name] else c.argv

/-- The arguments keep to the limits of `sys_spawn`. -/
structure Small (c : SpawnCall) : Prop where
  count : c.argv.length ≤ SPAWN_MAX_ARGS
  room : stringRoom c.argv ≤ ARGBUF_SIZE
  name : c.name.length < 256

/-- The program of the call was loaded for `task`, and finds `args` at its stack pointer. -/
def Finds (c : SpawnCall) (args : List Name) (task : Option TaskMem) (mem : PageMem) : Prop :=
  ∃ f t s l argp, c.file = some f ∧ c.taskCreate = some (t, s) ∧ task = some t ∧
    loadElf f t.pml4 0 userStackTop args s = some l ∧ l.rc = 0 ∧ mem = l.mem ∧ StartupBlock mem t.pml4 l.rsp args argp

theorem taskSpace_of_taskCreate {t : TaskMem} {s : PageMem} (h : c.taskCreate = some (t, s)) :
    taskSpace c.kernelPml4 c.mem = some (t.pml4, s) := by
  rw [taskCreate] at h
  rw [taskSpace]
  cases hcreate : c.mem.pgtableCreate c.kernelPml4 with
  | none =>
    rw [hcreate] at h
    cases h
  | some x =>
    obtain ⟨pml4, s₁⟩ := x
    rw [hcreate] at h
    cases hstack : c.kstack with
    | none =>
      simp only [hstack] at h
      cases h
    | some kstack =>
      simp only [hstack] at h ⊢
      obtain ⟨s₂, hmap, heq⟩ := Option.map_eq_some_iff.mp h
      obtain ⟨rfl, rfl⟩ := Prod.mk.inj heq
      rw [hmap]
      rfl

theorem Small.args_length (h : c.Small) : c.args.length ≤ 32 ∧ stringRoom c.args ≤ 1024 := by
  have hname := h.name
  rw [args]
  split
  · refine ⟨Nat.succ_le_succ (Nat.zero_le _), ?_⟩
    have hroom : stringRoom [c.name] = c.name.length + 1 := List.sum_singleton
    omega
  · exact ⟨h.count, h.room⟩

/-- A task that was spawned was loaded from a file. -/
theorem file_of_spawn {r : Spawned} (hr : c.spawn = some r) (hrc : 0 ≤ r.rc) : ∃ f, c.file = some f := by
  cases hfile : c.file with
  | none =>
    rw [spawn, hfile] at hr
    obtain rfl := Option.some.inj hr
    exact absurd hrc (show ¬(0 : ℤ) ≤ -1 by decide)
  | some f => exact ⟨f, rfl⟩

/-- **A program that was loaded finds its arguments**: nothing that keeps to the limits is too long for the stack. -/
theorem Finds.of_spawn {r : Spawned} {f : ImageFile} (hpool : c.mem.FreshPool c.kernelPml4) (hfile : c.file = some f)
    (himage : UserImage f) (hsmall : c.Small) (hr : c.spawn = some r) (hrc : 0 ≤ r.rc) :
    c.Finds c.args r.task r.mem := by
  rw [spawn, hfile] at hr
  simp only [] at hr
  split at hr
  · obtain rfl := Option.some.inj hr
    exact absurd hrc (show ¬(0 : ℤ) ≤ -1 by decide)
  cases hcreate : c.taskCreate with
  | none =>
    rw [hcreate] at hr
    cases hr
  | some x =>
    obtain ⟨t, s⟩ := x
    rw [hcreate] at hr
    simp only [] at hr
    rw [← args] at hr
    cases hload : loadElf f t.pml4 0 userStackTop c.args s with
    | none =>
      rw [hload] at hr
      cases hr
    | some l =>
      rw [hload] at hr
      simp only [] at hr
      split at hr
      · obtain rfl := Option.some.inj hr
        exact absurd hrc (show ¬(0 : ℤ) ≤ -1 by decide)
      · rename_i hzero
        obtain rfl := Option.some.inj hr
        have hl : l.rc = 0 := not_not.mp hzero
        obtain ⟨argp, hblock⟩ := loadElf_startup hpool (taskSpace_of_taskCreate hcreate) himage
          hsmall.args_length.1 hsmall.args_length.2 hload hl
        exact ⟨f, t, s, l, argp, hfile, hcreate, rfl, hload, hl, rfl, hblock⟩

end SpawnCall

theorem copyUserStr_negative {mem : Buf} {uptr : UInt64} {n : ℕ} {e : ℤ} (h : copyUserStr mem uptr n = .error e) :
    ¬0 ≤ e := by
  rw [copyUserStr] at h
  split at h
  · obtain rfl := Except.error.inj h
    decide
  · split at h
    · obtain rfl := Except.error.inj h
      decide
    · cases h

theorem argSlot_negative {mem : Buf} {uargv : UInt64} {argc : ℕ} {e : ℤ} (h : argSlot mem uargv argc = .error e) :
    ¬0 ≤ e := by
  rw [argSlot] at h
  split at h
  · obtain rfl := Except.error.inj h
    decide
  · cases h

theorem copyArgs_negative {mem : Buf} {uargv : UInt64} {left argc off : ℕ} {e : ℤ}
    (h : copyArgs mem uargv left argc off = .error e) : ¬0 ≤ e := by
  induction left generalizing argc off with
  | zero =>
    rw [copyArgs] at h
    cases hptr : argSlot mem uargv argc with
    | error e' =>
      rw [hptr] at h
      obtain rfl := Except.error.inj h
      exact argSlot_negative hptr
    | ok uptr =>
      rw [hptr] at h
      simp only [] at h
      split at h
      · cases h
      · obtain rfl := Except.error.inj h
        decide
  | succ left ih =>
    rw [copyArgs] at h
    cases hptr : argSlot mem uargv argc with
    | error e' =>
      rw [hptr] at h
      obtain rfl := Except.error.inj h
      exact argSlot_negative hptr
    | ok uptr =>
      rw [hptr] at h
      simp only [] at h
      split at h
      · cases h
      cases harg : copyUserStr mem uptr (ARGBUF_SIZE - off) with
      | error e' =>
        rw [harg] at h
        obtain rfl := Except.error.inj h
        exact copyUserStr_negative harg
      | ok arg =>
        rw [harg] at h
        cases hrest : copyArgs mem uargv left (argc + 1) (off + arg.length + 1) with
        | error e' =>
          simp only [hrest] at h
          obtain rfl := Except.error.inj h
          exact ih hrest
        | ok rest =>
          simp only [hrest] at h
          cases h

theorem spawnArgs_negative {mem : Buf} {uargv : UInt64} {e : ℤ} (h : spawnArgs mem uargv = .error e) : ¬0 ≤ e := by
  rw [spawnArgs] at h
  split at h
  · cases h
  · exact copyArgs_negative h

theorem baseName_length_le (name p : Name) : (baseName name p).length ≤ max name.length p.length := by
  induction p generalizing name with
  | nil => exact le_max_left _ _
  | cons c p ih =>
    rw [baseName, List.length_cons]
    split
    · exact (ih p).trans (by omega)
    · exact (ih name).trans (by omega)

theorem spawnRequest_eq_ok {cwd abspath : Name} {mem : Buf} {upath uargv : UInt64} {argv : List Name}
    (h : spawnRequest cwd mem upath uargv = .ok (abspath, argv)) :
    ∃ path, copyUserStr mem upath 128 = .ok path ∧ vfsResolvePath cwd path 256 = some abspath ∧
      spawnArgs mem uargv = .ok argv := by
  rw [spawnRequest, pathFrom] at h
  cases hpath : copyUserStr mem upath 128 with
  | error e =>
    rw [hpath] at h
    cases h
  | ok path =>
    cases hfold : vfsResolvePath cwd path 256 with
    | none =>
      simp only [hpath, hfold] at h
      cases h
    | some abspath' =>
      cases hargs : spawnArgs mem uargv with
      | error e =>
        simp only [hpath, hfold, hargs] at h
        cases h
      | ok argv' =>
        simp only [hpath, hfold, hargs] at h
        obtain ⟨rfl, rfl⟩ := Prod.mk.inj (Except.ok.inj h)
        exact ⟨path, rfl, hfold, rfl⟩

theorem spawnRequest_negative {cwd : Name} {mem : Buf} {upath uargv : UInt64} {e : ℤ}
    (h : spawnRequest cwd mem upath uargv = .error e) : ¬0 ≤ e := by
  rw [spawnRequest, pathFrom] at h
  cases hpath : copyUserStr mem upath 128 with
  | error e' =>
    simp only [hpath] at h
    obtain rfl := Except.error.inj h
    exact copyUserStr_negative hpath
  | ok path =>
    cases hfold : vfsResolvePath cwd path 256 with
    | none =>
      simp only [hpath, hfold] at h
      obtain rfl := Except.error.inj h
      decide
    | some abspath =>
      cases hargs : spawnArgs mem uargv with
      | error e' =>
        simp only [hpath, hfold, hargs] at h
        obtain rfl := Except.error.inj h
        exact spawnArgs_negative hargs
      | ok argv =>
        simp only [hpath, hfold, hargs] at h
        cases h

/-- A task that was made starts in the directory of the task that made it, and its program is the file that the virtual
file system opened for the same path. -/
theorem opened_of_sysSpawn {φ ι : Type} {ops : FsOps φ ι} {s : FileState φ ι} {t child : ℕ} {places : List (ℕ × ℕ)}
    {vfsOpen : Name → Option ImageFile} {mem : Buf} {upath uargv : UInt64} {c : SpawnCall} {rc : ℤ}
    {task : Option TaskMem} {m : PageMem}
    (hopen : ∀ path f, vfsOpen path = some f → ∃ id vfs, s.vfs.vfsOpen ops path O_RDONLY = (some id, vfs))
    (hcall : sysSpawn vfsOpen (s.cwd t) mem upath uargv c = some (rc, task, m)) (hrc : 0 ≤ rc) :
    ∃ abspath argv id vfs, spawnRequest (s.cwd t) mem upath uargv = .ok (abspath, argv) ∧
      s.vfs.vfsOpen ops abspath O_RDONLY = (some id, vfs) ∧
      s.sysSpawn ops t mem upath uargv child places =
        { s with
          vfs := (places.foldl (FileState.readAt ops id) vfs).vfsClose ops id
          cwd := Function.update s.cwd child (s.cwd t) } := by
  rw [sysSpawn] at hcall
  cases hrequest : spawnRequest (s.cwd t) mem upath uargv with
  | error e =>
    rw [hrequest] at hcall
    obtain ⟨rfl, -⟩ := Prod.mk.inj (Option.some.inj hcall)
    exact absurd hrc (spawnRequest_negative hrequest)
  | ok request =>
    obtain ⟨abspath, argv⟩ := request
    rw [hrequest] at hcall
    obtain ⟨r, hspawn, heq⟩ := Option.map_eq_some_iff.mp hcall
    have hanswer : (if r.rc < 0 then -ENOENT else r.rc) = rc := congrArg Prod.fst heq
    have hr : 0 ≤ r.rc := by
      by_contra hneg
      rw [if_pos (not_le.mp hneg)] at hanswer
      exact absurd (hanswer ▸ hrc) (by decide)
    obtain ⟨f, hfile⟩ := SpawnCall.file_of_spawn hspawn hr
    obtain ⟨id, vfs, hvfs⟩ := hopen abspath f hfile
    refine ⟨abspath, argv, id, vfs, rfl, hvfs, ?_⟩
    rw [FileState.sysSpawn, hrequest]
    simp only [FileState.spawn, hvfs]

/-- Where `sys_spawn` gives the pid of a task, its arguments passed the checks, and the task was loaded with them, if the
file asks for pages of the lower half only. -/
theorem finds_of_sysSpawn {vfsOpen : Name → Option ImageFile} {cwd : Name} {mem : Buf} {upath uargv : UInt64}
    {c : SpawnCall} {rc : ℤ} {task : Option TaskMem} {m : PageMem} (hpool : c.mem.FreshPool c.kernelPml4)
    (hcall : sysSpawn vfsOpen cwd mem upath uargv c = some (rc, task, m)) (hrc : 0 ≤ rc) :
    ∃ path abspath argv f, TextAt mem upath.toNat path ∧ vfsResolvePath cwd path 256 = some abspath ∧
      spawnArgs mem uargv = .ok argv ∧ vfsOpen abspath = some f ∧
      (UserImage f → SpawnCall.Finds { c with file := vfsOpen abspath }
        (if argv = [] then [baseName abspath abspath] else argv) task m) := by
  rw [sysSpawn] at hcall
  cases hrequest : spawnRequest cwd mem upath uargv with
  | error e =>
    rw [hrequest] at hcall
    obtain ⟨rfl, -⟩ := Prod.mk.inj (Option.some.inj hcall)
    exact absurd hrc (spawnRequest_negative hrequest)
  | ok request =>
    obtain ⟨abspath, argv⟩ := request
    obtain ⟨path, hpath, hfold, hargs⟩ := spawnRequest_eq_ok hrequest
    rw [hrequest] at hcall
    obtain ⟨r, hspawn, heq⟩ := Option.map_eq_some_iff.mp hcall
    obtain ⟨hanswer, rfl, rfl⟩ : (if r.rc < 0 then -ENOENT else r.rc) = rc ∧ r.task = task ∧ r.mem = m := by
      simpa only [Prod.mk.injEq] using heq
    have hr : 0 ≤ r.rc := by
      by_contra hneg
      rw [if_pos (not_le.mp hneg)] at hanswer
      exact absurd (hanswer ▸ hrc) (by decide)
    have hgiven := spawnArgs_eq_ok.mp hargs
    have hsmall : SpawnCall.Small { c with file := vfsOpen abspath, name := baseName abspath abspath, argv := argv } := by
      refine ⟨?_, ?_, (baseName_length_le abspath abspath).trans_lt ?_⟩
      · rcases hgiven with ⟨-, rfl⟩ | ⟨hcount, -, -⟩
        · exact Nat.zero_le _
        · exact hcount
      · rcases hgiven with ⟨-, rfl⟩ | ⟨-, hroom, -⟩
        · exact Nat.zero_le _
        · exact hroom
      · obtain ⟨hfits, rfl⟩ := vfsResolvePath_eq_some_iff.mp hfold
        have hresult := hfits.result
        omega
    obtain ⟨f, hfile⟩ := SpawnCall.file_of_spawn hspawn hr
    refine ⟨path, abspath, argv, f, ((copyUserStr_eq_ok (by decide)).mp hpath).2.2, hfold, hargs, hfile, fun himage => ?_⟩
    exact SpawnCall.Finds.of_spawn
      (c := { c with file := vfsOpen abspath, name := baseName abspath abspath, argv := argv })
      hpool hfile himage hsmall hspawn hr

/-- **`sys_spawn` hands the arguments on.**  Where it gives the pid of a task, the path and the array passed its checks,
and the task was loaded from the file of the folded path; if that file asks for pages of the lower half only, the task
finds the strings of the array as its arguments, or the name of the program where there are none. -/
theorem sysSpawn_hands_on {vfsOpen : Name → Option ImageFile} {cwd : Name} {mem : Buf} {upath uargv : UInt64}
    {c : SpawnCall} {rc : ℤ} {task : Option TaskMem} {m : PageMem} (hpool : c.mem.FreshPool c.kernelPml4)
    (hcall : sysSpawn vfsOpen cwd mem upath uargv c = some (rc, task, m)) (hrc : 0 ≤ rc) :
    ∃ path abspath argv f, TextAt mem upath.toNat path ∧ vfsResolvePath cwd path 256 = some abspath ∧
      ((uargv = 0 ∧ argv = []) ∨
        (argv.length ≤ SPAWN_MAX_ARGS ∧ stringRoom argv ≤ ARGBUF_SIZE ∧ ArgvAt mem uargv.toNat argv)) ∧
      vfsOpen abspath = some f ∧
      (UserImage f → SpawnCall.Finds { c with file := vfsOpen abspath }
        (if argv = [] then [baseName abspath abspath] else argv) task m) := by
  obtain ⟨path, abspath, argv, f, hpath, hfold, hargs, hfile, hfinds⟩ := finds_of_sysSpawn hpool hcall hrc
  exact ⟨path, abspath, argv, f, hpath, hfold, spawnArgs_eq_ok.mp hargs, hfile, hfinds⟩

/-- An executable without segments. -/
def noSegments : List UInt8 :=
  [0x7f, 0x45, 0x4c, 0x46, 2, 1, 1, 0, 0, 0, 0, 0, 0, 0, 0, 0] ++ leBytes 2 ET_EXEC ++ leBytes 2 62 ++
    leBytes 4 1 ++ leBytes 8 0x400000 ++ leBytes 8 EHDR_SIZE ++ leBytes 8 0 ++ leBytes 4 0 ++ leBytes 2 EHDR_SIZE ++
    leBytes 2 PHDR_SIZE ++ leBytes 2 0 ++ leBytes 2 0 ++ leBytes 2 0 ++ leBytes 2 0

theorem programHeaders_noSegments : programHeaders (imageOf noSegments) = some (0x400000, []) := by decide

/-- A file system in which every path leads to this executable. -/
def onlyNoSegments : Name → Option ImageFile := fun _ => some (imageOf noSegments)

theorem noSegments_user : UserImage (imageOf noSegments) := by
  rw [UserImage, programHeaders_noSegments]
  trivial

/-- On the kernel with three hundred frames, the executable without segments is loaded. -/
theorem noSegments_spawns (name : Name) (hname : name.length < 256) :
    ∃ r, SpawnCall.spawn { SpawnCall.twoBytesCall with file := some (imageOf noSegments), name := name } = some r ∧
      r.rc = 1 := by
  obtain ⟨pml4, s, hspace, -⟩ := bootMem_taskSpace
  obtain ⟨s₁, hcreate, hstack⟩ := taskSpace_cases hspace
  have htask : SpawnCall.taskCreate { SpawnCall.twoBytesCall with file := some (imageOf noSegments), name := name } =
      some (⟨pml4, HHDM_OFFSET + 0x800000 + KSTACK_PAGES * PAGE_SIZE, false⟩, s) := by
    have hmem : SpawnCall.twoBytesCall.mem = bootMem ∧ SpawnCall.twoBytesCall.kernelPml4 = bootPml4 ∧
        SpawnCall.twoBytesCall.kstack = some (HHDM_OFFSET + 0x800000) := ⟨rfl, rfl, rfl⟩
    rw [SpawnCall.taskCreate]
    simp only [hmem, hcreate, hstack, Option.map_some]
  obtain ⟨hs, hmapped⟩ := userSpace_of_taskSpace bootMem_freshPool hspace
  have hfit : stackRoom ([name].take MAX_ARGS) ≤ USER_STACK_PAGES * PAGE_SIZE := by
    have hsize : USER_STACK_PAGES * PAGE_SIZE = 0x40000 := by decide
    have hroom : stringRoom [name] = name.length + 1 := List.sum_singleton
    rw [show [name].take MAX_ARGS = [name] from rfl, stackRoom, hroom, hsize, List.length_singleton]
    omega
  obtain ⟨rsp, argp, s₂, hsetup, -⟩ := setupUserStack_spec hs (fun va hva => (hmapped va (by
    have htop : userStackTop = 0x700000040000 := by decide
    have hhigh := hva.2
    omega)).mpr hva) hfit
  refine ⟨⟨1, some ⟨pml4, HHDM_OFFSET + 0x800000 + KSTACK_PAGES * PAGE_SIZE, false⟩, s₂⟩, ?_, rfl⟩
  rw [SpawnCall.spawn, htask]
  have hload : loadElf (imageOf noSegments) pml4 0 userStackTop [name] s = some ⟨0, 0x400000, rsp, [], s₂⟩ := by
    rw [loadElf, programHeaders_noSegments]
    simp only [loadSegments, hsetup]
  have hfields : SpawnCall.twoBytesCall.zalloc = true ∧ SpawnCall.twoBytesCall.argv = [] ∧
    SpawnCall.twoBytesCall.pid = 1 := ⟨rfl, rfl, rfl⟩
  simp only [hfields, if_true, hload]
  rfl

/-- The program `/a`, spawned without arguments. -/
theorem sysSpawn_hands_on_name : ∃ task m, sysSpawn onlyNoSegments [47] (fun i => if i = 16 then 97 else 0) 16 0
    SpawnCall.twoBytesCall = some (1, task, m) ∧
      ∃ path abspath argv, TextAt (fun i => if i = 16 then 97 else 0) 16 path ∧
        vfsResolvePath [47] path 256 = some abspath ∧
        (((0 : UInt64) = 0 ∧ argv = []) ∨ (argv.length ≤ SPAWN_MAX_ARGS ∧ stringRoom argv ≤ ARGBUF_SIZE ∧
          ArgvAt (fun i => if i = 16 then 97 else 0) 0 argv)) ∧
        SpawnCall.Finds { SpawnCall.twoBytesCall with file := onlyNoSegments abspath }
          (if argv = [] then [baseName abspath abspath] else argv) task m := by
  obtain ⟨r, hspawn, hrc⟩ := noSegments_spawns [97] (by decide)
  have hcall : sysSpawn onlyNoSegments [47] (fun i => if i = 16 then 97 else 0) 16 0 SpawnCall.twoBytesCall =
      some (1, r.task, r.mem) := by
    have hpath : copyUserStr (fun i => if i = 16 then 97 else 0) 16 128 = .ok [97] := rfl
    have hfold : vfsResolvePath [47] [97] 256 = some [47, 97] := by decide
    have hargs : spawnArgs (fun i => if i = 16 then 97 else 0) 0 = .ok [] := rfl
    have hname : baseName [47, 97] [47, 97] = [97] := by decide
    have hrequest : spawnRequest [47] (fun i => if i = 16 then 97 else 0) 16 0 = .ok ([47, 97], []) := by
      rw [spawnRequest, pathFrom, hpath]
      simp only [hfold, hargs]
    rw [sysSpawn, hrequest]
    simp only [hname]
    have hspawn' : SpawnCall.spawn { SpawnCall.twoBytesCall with
        file := onlyNoSegments [47, 97], name := [97], argv := [] } = some r := hspawn
    rw [hspawn', Option.map_some, hrc]
    rfl
  obtain ⟨path, abspath, argv, f, hpath, hfold, hargs, hfile, hfinds⟩ :=
    sysSpawn_hands_on bootMem_freshPool hcall (by decide)
  obtain rfl := Option.some.inj hfile
  exact ⟨r.task, r.mem, hcall, path, abspath, argv, hpath, hfold, hargs, hfinds noSegments_user⟩

/-! ### A command line -/

/-- The words of a cut line are an array for `sys_spawn`. -/
theorem argvAt_of_wordsAt {mem : Buf} {lo hi slot : ℕ} {ws : List Name} (h : WordsAt mem lo hi slot ws) (hlo : 0 < lo)
    (hhi : hi ≤ BOOT_HHDM_BASE) (hslot : 0 < slot) (hslots : slot + 8 * ws.length < BOOT_HHDM_BASE)
    (hend : loadLe mem (slot + 8 * ws.length) 8 = 0) : ArgvAt mem slot ws := by
  induction ws generalizing slot with
  | nil => exact ⟨hslot, by simpa using hslots, by simpa using hend⟩
  | cons w ws ih =>
    rw [List.length_cons] at hslots hend
    obtain ⟨⟨a, hload, ha, ha', hw⟩, hrest⟩ := h
    refine ⟨⟨hslot, by omega, a, hload, by omega, by omega, hw⟩, ih hrest (by omega) (by omega) ?_⟩
    rw [← hend]
    congr 1
    omega

/-- The buffer of the line and the array of a shell: in the lower half, apart from each other. -/
structure ShellBuffers (line argv : ℕ) : Prop where
  line_pos : 0 < line
  argv_pos : 0 < argv
  line_low : line + LINE_MAX ≤ 2 ^ 47
  argv_low : argv + 8 * User.Shell.MAX_ARGS ≤ 2 ^ 47
  apart : line + LINE_MAX ≤ argv ∨ argv + 8 * User.Shell.MAX_ARGS ≤ line

/-- **`tokenize` makes an array** of the first 31 words of a line, which is none too long for `sys_spawn`. -/
theorem tokenize_spec {mem : Buf} {line argv : ℕ} {text : Name} (hbuf : ShellBuffers line argv)
    (htext : TextAt mem line text) (hlen : text.length < LINE_MAX) :
    ∃ mem', tokenize line argv mem = some (((wordsOf isBlank text).take 31).length, mem') ∧
      ArgvAt mem' argv ((wordsOf isBlank text).take 31) ∧ stringRoom ((wordsOf isBlank text).take 31) ≤ ARGBUF_SIZE := by
  have hmax : LINE_MAX = 256 := rfl
  have hargs : User.Shell.MAX_ARGS = 32 := rfl
  have hbase : BOOT_HHDM_BASE = 0xFFFF800000000000 := rfl
  have hlow := hbuf.line_low
  have hlow' := hbuf.argv_low
  have hapart := hbuf.apart
  have hpos := hbuf.line_pos
  have hpos' := hbuf.argv_pos
  have hapart' : line + text.length < argv + 8 * 0 ∨ argv + 8 * (0 + 31) ≤ line := by omega
  obtain ⟨mem₁, hloop, hwords, -⟩ := tokenizeLoop_spec htext hlen (by omega) hapart'
  have hcount : ((wordsOf isBlank text).take 31).length ≤ 31 := List.length_take_le _ _
  have hroom : stringRoom ((wordsOf isBlank text).take 31) ≤ text.length + 1 :=
    (((List.take_sublist 31 _).map _).sum_le_sum fun _ _ => Nat.zero_le _).trans (wordsOf_room isBlank text)
  rw [Nat.zero_add] at hloop
  rw [Nat.mul_zero, Nat.add_zero] at hwords
  have hfinal : ∀ a, a < argv + 8 * ((wordsOf isBlank text).take 31).length ∨
      argv + 8 * ((wordsOf isBlank text).take 31).length + 8 ≤ a →
      storeLe mem₁ (argv + 8 * ((wordsOf isBlank text).take 31).length) 8 0 a = mem₁ a := fun a ha => splice_outside ha
  refine ⟨storeLe mem₁ (argv + 8 * ((wordsOf isBlank text).take 31).length) 8 0, ?_, ?_, by rw [ARGBUF_SIZE]; omega⟩
  · rw [tokenize, User.Shell.MAX_ARGS, hloop]
    rfl
  · refine argvAt_of_wordsAt (hwords.congr (fun a ha ha' => hfinal a ?_) fun a ha ha' => hfinal a (.inl ha')) hpos
      (by omega) hpos' (by omega) (loadLe_storeLe (by norm_num))
    omega

/-- **The words of a command line are the arguments of the program.**  When the shell has cut a line that has a word,
`sys_spawn(argv[0], argv)` accepts its array, and where it gives a pid, the task was loaded from the file that the first
word names; if that file asks for pages of the lower half only, the task finds the first 31 words of the line. -/
theorem commandLine_arguments {vfsOpen : Name → Option ImageFile} (cwd : Name) {mem : Buf} {line argv : ℕ}
    {text first : Name} {rest : List Name} {c : SpawnCall} (hbuf : ShellBuffers line argv)
    (htext : TextAt mem line text) (hlen : text.length < LINE_MAX) (hwords : wordsOf isBlank text = first :: rest)
    (hpool : c.mem.FreshPool c.kernelPml4) :
    ∃ mem', tokenize line argv mem = some ((first :: rest.take 30).length, mem') ∧
      spawnArgs mem' (UInt64.ofNat argv) = .ok (first :: rest.take 30) ∧
      ∀ rc task m, sysSpawn vfsOpen cwd mem' (UInt64.ofNat (loadLe mem' argv 8)) (UInt64.ofNat argv) c =
        some (rc, task, m) → 0 ≤ rc → ∃ abspath f, vfsResolvePath cwd first 256 = some abspath ∧
          vfsOpen abspath = some f ∧
          (UserImage f → SpawnCall.Finds { c with file := vfsOpen abspath } (first :: rest.take 30) task m) := by
  obtain ⟨mem', htok, hat, hroom⟩ := tokenize_spec hbuf htext hlen
  have htake : (wordsOf isBlank text).take 31 = first :: rest.take 30 := by
    rw [hwords]
    rfl
  rw [htake] at htok hat hroom
  have hlow := hbuf.argv_low
  have huargv : (UInt64.ofNat argv).toNat = argv := by
    rw [UInt64.toNat_ofNat', Nat.mod_eq_of_lt (by omega)]
  have hargs : spawnArgs mem' (UInt64.ofNat argv) = .ok (first :: rest.take 30) := by
    refine spawnArgs_eq_ok.mpr (.inr ⟨?_, hroom, huargv.symm ▸ hat⟩)
    have hcount : (rest.take 30).length ≤ 30 := List.length_take_le _ _
    rw [List.length_cons, SPAWN_MAX_ARGS]
    omega
  refine ⟨mem', htok, hargs, fun rc task m hcall hrc => ?_⟩
  obtain ⟨path, abspath, argv', f, hpath, hfold, hargs', hfile, hfinds⟩ := finds_of_sysSpawn hpool hcall hrc
  obtain rfl := Except.ok.inj (hargs'.symm.trans hargs)
  -- the path is the string of the first pointer
  obtain ⟨⟨-, -, p, hload, -, hp, hfirst⟩, -⟩ := hat
  have hptr : (UInt64.ofNat (loadLe mem' argv 8)).toNat = p := by
    rw [BOOT_HHDM_BASE] at hp
    rw [UInt64.toNat_ofNat', hload, Nat.mod_eq_of_lt (by omega)]
  rw [hptr] at hpath
  obtain rfl := hpath.unique hfirst
  exact ⟨abspath, f, hfold, hfile, hfinds⟩

/-- The line `./a b`. -/
def typedLine : Name := [46, 47, 97, 32, 98]

/-- The memory of a shell that has read this line. -/
def typedMem : Buf := splice (fun _ => 0) 0x1000 (strBytes typedLine) (typedLine.length + 1)

/-- The line `./a b` has two words, and so has the array. -/
theorem commandLine_arguments_typed : ∃ mem', tokenize 0x1000 0x2000 typedMem = some (2, mem') ∧
    spawnArgs mem' (UInt64.ofNat 0x2000) = .ok [[46, 47, 97], [98]] := by
  have hbuf : ShellBuffers 0x1000 0x2000 := ⟨by decide, by decide, by decide, by decide, by decide⟩
  have htext : TextAt typedMem 0x1000 typedLine :=
    (textAt_iff (n := LINE_MAX) (by decide)).mp (userStr_splice _ _ (by decide) (by decide))
  obtain ⟨mem', htok, hargs, -⟩ := @commandLine_arguments onlyNoSegments [47] typedMem 0x1000 0x2000 typedLine [46, 47, 97]
    [[98]] SpawnCall.twoBytesCall hbuf htext (by decide) (by decide) bootMem_freshPool
  exact ⟨mem', htok, hargs⟩

end LizardOs.Proc
