import LizardOs.Fat.Namespace
import LizardOs.Fat.Slots
import LizardOs.Syscall.Abi

/-!
# Directory pagination

`sys_readdir` hands a directory out in batches: each call walks the directory from the start, skips the
slots before the saved file offset, fills the caller's array and saves where the next call resumes.  The
callback saves the resume position *before* it tries to store the record, so the record that finds the array
full is skipped by the next call.  `readdirLoop_iff` says exactly when a listing comes out complete.
-/

namespace LizardOs.Fat

open LizardOs.Lib
open LizardOs.Syscall (EFAULT EINVAL DIRENT_SIZE userPtrOk)

/-- One `sys_readdir` request: the user array and its capacity (an `int` in the system-call ABI). -/
structure ReaddirArgs where
  ubuf : UInt64
  max : ℤ

/-- `sys_readdir` on an open directory: the return value, the new file offset and the records stored. -/
def sysReaddir (dir : Inode) (offset : ℕ) (args : ReaddirArgs) : Fs (ℤ × ℕ × List Dirent) :=
  if args.max ≤ 0 then pure (-EINVAL, offset, [])
  else if userPtrOk args.ubuf (UInt64.ofInt (args.max * DIRENT_SIZE)) then do
    let p ← fat16Readdir dir offset args.max
    pure (p.2.length, p.1, p.2)
  else pure (-EFAULT, offset, [])

/-- A request `sys_readdir` serves: a positive `int` capacity and an array it may write. -/
structure ReaddirArgs.Served (a : ReaddirArgs) : Prop where
  pos : 1 ≤ a.max
  int : a.max < 2 ^ 31
  ptr : userPtrOk a.ubuf (UInt64.ofInt (a.max * DIRENT_SIZE)) = true

/-- The caller's loop: call `k`, call `k + 1`, … from a file offset until a call returns `0`; the list is
what the calls delivered, concatenated. -/
inductive ReaddirLoop (fs : Fat16) (dir : Inode) (args : ℕ → ReaddirArgs) :
    ℕ → ℕ → List Dirent → Prop
  | done {k offset offset' : ℕ} :
      sysReaddir dir offset (args k) fs = some ((0, offset', []), fs) →
      ReaddirLoop fs dir args k offset []
  | more {k offset offset' : ℕ} {r : ℤ} {ds rest : List Dirent} :
      sysReaddir dir offset (args k) fs = some ((r, offset', ds), fs) → 0 < r →
      ReaddirLoop fs dir args (k + 1) offset' rest →
      ReaddirLoop fs dir args k offset (ds ++ rest)

namespace Fat16

/-- The entries in use among the slots, each with its running 32-bit byte offset. -/
def entriesFrom (fs : Fat16) : ℕ → List DirLoc → List (ℕ × DirLoc)
  | _, [] => []
  | off, loc :: ls =>
      if fat16EntryValid (fs.entryAt loc) then
        (off, loc) :: fs.entriesFrom ((off + FAT16_DIR_ENTRY_SIZE) % 2 ^ 32) ls
      else fs.entriesFrom ((off + FAT16_DIR_ENTRY_SIZE) % 2 ^ 32) ls

/-- The record of an entry at its offset. -/
def direntAt (fs : Fat16) (p : ℕ × DirLoc) : Dirent := direntOf (fs.entryAt p.2) p.1

/-- The complete listing of a directory: every entry before the first end marker that
`fat16_entry_valid` accepts, in slot order. -/
def listing (fs : Fat16) (ls : List DirLoc) : List Dirent :=
  (fs.entriesFrom 0 (fs.beforeEnd ls)).map fs.direntAt

/-- What `readdir_cb` answers on a slot. -/
def readdirStep (fs : Fat16) (loc : DirLoc) (off : ℕ) (ctx : ReaddirCtx) : ℤ × ReaddirCtx :=
  if off < ctx.start then (0, ctx)
  else
    let ctx := { ctx with next := (off + FAT16_DIR_ENTRY_SIZE) % 2 ^ 32 }
    if fat16EntryValid (fs.entryAt loc) = false then (0, ctx)
    else
      match readdirFilldir ctx (direntOf (fs.entryAt loc) off) with
      | none => (1, ctx)
      | some ctx => (0, { ctx with count := ctx.count + 1 })

end Fat16

variable {fs : Fat16}

theorem readdirCb_pure (ls : List DirLoc) : DirPure fs readdirCb fs.readdirStep ls := by
  intro loc _ off ctx
  unfold readdirCb Fat16.readdirStep
  simp only [Prog.ite_apply, Prog.pure_apply]
  split
  · rfl
  · split
    · rfl
    · split
      · rename_i heq
        rw [heq]
        rfl
      · rename_i heq
        rw [heq]
        rfl

/-! ### One call -/

/-- The offset after a slot. -/
def nextOffset (off : ℕ) : ℕ := (off + FAT16_DIR_ENTRY_SIZE) % 2 ^ 32

/-- How many records still fit. -/
def ReaddirCtx.room (ctx : ReaddirCtx) : ℕ := (ctx.max - ctx.out.length).toNat

/-- The entries a walk from `off` offers to a call that resumes at `start`. -/
def Fat16.offered (fs : Fat16) (start off : ℕ) (ls : List DirLoc) : List (ℕ × DirLoc) :=
  (fs.entriesFrom off ls).filter fun p => decide (start ≤ p.1)

theorem offered_cons (fs : Fat16) (start off : ℕ) (loc : DirLoc) (ls : List DirLoc) :
    fs.offered start off (loc :: ls) =
      if start ≤ off ∧ fat16EntryValid (fs.entryAt loc) = true then
        (off, loc) :: fs.offered start (nextOffset off) ls
      else fs.offered start (nextOffset off) ls := by
  unfold Fat16.offered
  rw [Fat16.entriesFrom]
  by_cases hv : fat16EntryValid (fs.entryAt loc) = true
  · by_cases hs : start ≤ off
    · simp [hv, hs, nextOffset]
    · simp [hv, hs, nextOffset]
  · simp [hv, nextOffset]

/-- **What one walk delivers**: the entries offered, up to the capacity; and where it resumes if the capacity
ran out. -/
theorem walkFold_readdir (fs : Fat16) (ls : List DirLoc) : ∀ (off : ℕ) (ctx : ReaddirCtx),
    (∀ loc ∈ ls, fs.firstByte loc ≠ FAT16_DIR_ENTRY_END) →
    (fs.walkFold fs.readdirStep ls ⟨0, off, false, ctx⟩).ctx.out =
        ctx.out ++ ((fs.offered ctx.start off ls).take ctx.room).map fs.direntAt ∧
    (∀ p, (fs.offered ctx.start off ls)[ctx.room]? = some p →
      (fs.walkFold fs.readdirStep ls ⟨0, off, false, ctx⟩).ctx.next = nextOffset p.1) := by
  induction ls with
  | nil =>
    intro off ctx _
    simp [Fat16.walkFold, Fat16.offered, Fat16.entriesFrom]
  | cons loc ls ih =>
    intro off ctx hne
    have hne' := fun l hl => hne l (List.mem_cons_of_mem _ hl)
    have hend : fs.firstByte loc ≠ FAT16_DIR_ENTRY_END := hne loc (by simp)
    rw [offered_cons]
    by_cases hs : off < ctx.start
    · -- an entry of an earlier batch
      have hstep : fs.readdirStep loc off ctx = (0, ctx) := by simp [Fat16.readdirStep, hs]
      simp only [Fat16.walkFold, hend, if_false, hstep, ne_eq, not_true_eq_false]
      rw [if_neg (by omega)]
      exact ih (nextOffset off) ctx hne'
    by_cases hv : fat16EntryValid (fs.entryAt loc) = true
    · rw [if_pos ⟨by omega, hv⟩]
      by_cases hfull : ctx.max ≤ ctx.out.length
      · -- the array is full: the walk stops on this entry
        have hroom : ctx.room = 0 := by unfold ReaddirCtx.room; omega
        have hstep : fs.readdirStep loc off ctx = (1, { ctx with next := nextOffset off }) := by
          simp [Fat16.readdirStep, hs, hv, readdirFilldir, hfull, nextOffset]
        simp only [Fat16.walkFold, hend, if_false, hstep, ne_eq, one_ne_zero, not_false_eq_true,
          if_true, hroom, List.take_zero, List.map_nil, List.append_nil, true_and]
        intro p hp
        simp only [List.getElem?_cons_zero, Option.some.injEq] at hp
        rw [← hp]
      · let ctx' : ReaddirCtx :=
          { ctx with
            next := nextOffset off
            count := ctx.count + 1
            out := ctx.out ++ [direntOf (fs.entryAt loc) off] }
        have hstep : fs.readdirStep loc off ctx = (0, ctx') := by
          simp [Fat16.readdirStep, hs, hv, readdirFilldir, hfull, nextOffset, ctx']
        have hroom : ctx.room = ctx'.room + 1 := by
          simp only [ReaddirCtx.room, ctx', List.length_append, List.length_cons, List.length_nil]
          omega
        have hrec := ih (nextOffset off) ctx' hne'
        simp only [Fat16.walkFold, hend, if_false, hstep, ne_eq, not_true_eq_false]
        refine ⟨?_, ?_⟩
        · refine hrec.1.trans ?_
          rw [hroom]
          simp [ctx', Fat16.direntAt]
        · intro p hp
          rw [hroom, List.getElem?_cons_succ] at hp
          exact hrec.2 p hp
    · -- a deleted, long-name or label slot
      let ctx' : ReaddirCtx := { ctx with next := nextOffset off }
      have hstep : fs.readdirStep loc off ctx = (0, ctx') := by
        simp [Fat16.readdirStep, hs, hv, nextOffset, ctx']
      simp only [Fat16.walkFold, hend, if_false, hstep, ne_eq, not_true_eq_false]
      rw [if_neg (by simp [hv])]
      exact ih (nextOffset off) ctx' hne'

/-- A first walk that delivers everything resumes behind the last slot. -/
theorem walkFold_readdir_end (fs : Fat16) (ls : List DirLoc) : ∀ (off : ℕ) (ctx : ReaddirCtx),
    (∀ loc ∈ ls, fs.firstByte loc ≠ FAT16_DIR_ENTRY_END) → ctx.start = 0 → ctx.next = off →
    off < 2 ^ 32 → (fs.offered 0 off ls).length ≤ ctx.room →
    (fs.walkFold fs.readdirStep ls ⟨0, off, false, ctx⟩).ctx.next =
      (off + FAT16_DIR_ENTRY_SIZE * ls.length) % 2 ^ 32 := by
  induction ls with
  | nil =>
    intro off ctx _ _ hnext hoff _
    simp only [Fat16.walkFold, hnext, List.length_nil, Nat.mul_zero, Nat.add_zero]
    omega
  | cons loc ls ih =>
    intro off ctx hne hstart hnext hoff hlen
    have hne' := fun l hl => hne l (List.mem_cons_of_mem _ hl)
    have hend : fs.firstByte loc ≠ FAT16_DIR_ENTRY_END := hne loc (by simp)
    have hnext' : nextOffset off < 2 ^ 32 := Nat.mod_lt _ (by norm_num)
    have hsum : (nextOffset off + FAT16_DIR_ENTRY_SIZE * ls.length) % 2 ^ 32 =
        (off + FAT16_DIR_ENTRY_SIZE * (loc :: ls).length) % 2 ^ 32 := by
      simp only [nextOffset, List.length_cons, FAT16_DIR_ENTRY_SIZE]
      omega
    rw [offered_cons] at hlen
    by_cases hv : fat16EntryValid (fs.entryAt loc) = true
    · rw [if_pos ⟨by omega, hv⟩, List.length_cons] at hlen
      have hfull : ¬ctx.max ≤ ctx.out.length := by
        unfold ReaddirCtx.room at hlen
        omega
      let ctx' : ReaddirCtx :=
        { ctx with
          next := nextOffset off
          count := ctx.count + 1
          out := ctx.out ++ [direntOf (fs.entryAt loc) off] }
      have hstep : fs.readdirStep loc off ctx = (0, ctx') := by
        simp [Fat16.readdirStep, hstart, hv, readdirFilldir, hfull, nextOffset, ctx']
      have hroom : ctx.room = ctx'.room + 1 := by
        simp only [ReaddirCtx.room, ctx', List.length_append, List.length_cons, List.length_nil]
        omega
      simp only [Fat16.walkFold, hend, if_false, hstep, ne_eq, not_true_eq_false]
      exact (ih (nextOffset off) ctx' hne' hstart rfl hnext' (by omega)).trans hsum
    · rw [if_neg (by simp [hv])] at hlen
      let ctx' : ReaddirCtx := { ctx with next := nextOffset off }
      have hstep : fs.readdirStep loc off ctx = (0, ctx') := by
        simp [Fat16.readdirStep, hstart, hv, nextOffset, ctx']
      simp only [Fat16.walkFold, hend, if_false, hstep, ne_eq, not_true_eq_false]
      exact (ih (nextOffset off) ctx' hne' hstart rfl hnext' hlen).trans hsum

theorem readdirStep_next (fs : Fat16) (loc : DirLoc) (off : ℕ) (ctx : ReaddirCtx) :
    (fs.readdirStep loc off ctx).2.next = ctx.next ∨
    (fs.readdirStep loc off ctx).2.next = nextOffset off := by
  by_cases hs : off < ctx.start
  · simp [Fat16.readdirStep, hs]
  by_cases hv : fat16EntryValid (fs.entryAt loc) = true
  · by_cases hfull : ctx.max ≤ ctx.out.length
    · simp [Fat16.readdirStep, hs, hv, readdirFilldir, hfull, nextOffset]
    · simp [Fat16.readdirStep, hs, hv, readdirFilldir, hfull, nextOffset]
  · simp [Fat16.readdirStep, hs, hv, nextOffset]

/-- The resume position is always a slot boundary below `2^32`. -/
theorem walkFold_readdir_aligned (fs : Fat16) (ls : List DirLoc) :
    ∀ (off : ℕ) (ctx : ReaddirCtx), off % FAT16_DIR_ENTRY_SIZE = 0 →
    (ctx.next % FAT16_DIR_ENTRY_SIZE = 0 ∧ ctx.next < 2 ^ 32) →
    (fs.walkFold fs.readdirStep ls ⟨0, off, false, ctx⟩).ctx.next % FAT16_DIR_ENTRY_SIZE = 0 ∧
    (fs.walkFold fs.readdirStep ls ⟨0, off, false, ctx⟩).ctx.next < 2 ^ 32 := by
  induction ls with
  | nil => intro off ctx _ h; exact h
  | cons loc ls ih =>
    intro off ctx hoff hnext
    have hoff' : nextOffset off % FAT16_DIR_ENTRY_SIZE = 0 := by
      simp only [nextOffset, FAT16_DIR_ENTRY_SIZE] at *
      omega
    have hlt : nextOffset off < 2 ^ 32 := Nat.mod_lt _ (by norm_num)
    have hstep : (fs.readdirStep loc off ctx).2.next % FAT16_DIR_ENTRY_SIZE = 0 ∧
        (fs.readdirStep loc off ctx).2.next < 2 ^ 32 := by
      rcases readdirStep_next fs loc off ctx with h | h
      · rw [h]; exact hnext
      · rw [h]; exact ⟨hoff', hlt⟩
    simp only [Fat16.walkFold]
    split
    · exact hnext
    · split
      · exact hstep
      · exact ih _ _ hoff' hstep

/-- The walk's final context for a call that resumes at `offset`. -/
def Fat16.readdirEnd (fs : Fat16) (ls : List DirLoc) (offset : ℕ) (max : ℤ) : ReaddirCtx :=
  (fs.walkFold fs.readdirStep (fs.beforeEnd ls) ⟨0, 0, false, ⟨offset, offset, 0, max, []⟩⟩).ctx

theorem sysReaddir_ok (hm : fs.Mounted) {dir : Inode} {l : List ℕ}
    (hd : fs.DirChain dir.ent.cluster l) {offset : ℕ} (hoff : offset < 2 ^ 32) {a : ReaddirArgs}
    (ha : a.Served) :
    sysReaddir dir offset a fs =
      some ((((fs.readdirEnd (fs.header.dirSlots dir.ent.cluster l) offset a.max).out.length : ℤ),
        (fs.readdirEnd (fs.header.dirSlots dir.ent.cluster l) offset a.max).next,
        (fs.readdirEnd (fs.header.dirSlots dir.ent.cluster l) offset a.max).out), fs) := by
  have hpos : ¬a.max ≤ 0 := by have := ha.pos; omega
  have hwalk := fat16WalkDir_ok hm hd (⟨offset, offset, 0, a.max, []⟩ : ReaddirCtx)
    (readdirCb_pure _)
  simp only [sysReaddir, Prog.ite_apply, hpos, if_false, ha.ptr, if_true, Prog.bind_apply,
    fat16Readdir, Nat.mod_eq_of_lt hoff, hwalk, Prog.obind_some, Prog.pure_apply]
  rw [(walkFold_beforeEnd fs fs.readdirStep _ _).1]
  rfl

theorem readdirEnd_out (fs : Fat16) (ls : List DirLoc) (offset : ℕ) (max : ℤ) :
    (fs.readdirEnd ls offset max).out =
      ((fs.offered offset 0 (fs.beforeEnd ls)).take max.toNat).map fs.direntAt := by
  have h := (walkFold_readdir fs (fs.beforeEnd ls) 0 ⟨offset, offset, 0, max, []⟩
    fun loc hloc => mem_beforeEnd_ne hloc).1
  rw [Fat16.readdirEnd, h]
  simp [ReaddirCtx.room]

theorem offered_zero (fs : Fat16) (off : ℕ) (ls : List DirLoc) :
    fs.offered 0 off ls = fs.entriesFrom off ls := by
  simp [Fat16.offered]

theorem entriesFrom_length (fs : Fat16) (ls : List DirLoc) : ∀ off,
    (fs.entriesFrom off ls).length =
      (ls.filter fun loc => fat16EntryValid (fs.entryAt loc)).length := by
  induction ls with
  | nil => intro off; rfl
  | cons loc ls ih =>
    intro off
    rw [Fat16.entriesFrom]
    by_cases hv : fat16EntryValid (fs.entryAt loc) = true
    · simp [hv, ih]
    · simp [hv, ih]

theorem entriesFrom_offset (fs : Fat16) (ls : List DirLoc) : ∀ off, off < 2 ^ 32 →
    off % FAT16_DIR_ENTRY_SIZE = 0 → ∀ p ∈ fs.entriesFrom off ls,
    p.1 < 2 ^ 32 ∧ p.1 % FAT16_DIR_ENTRY_SIZE = 0 := by
  induction ls with
  | nil => intro off _ _ p hp; simp [Fat16.entriesFrom] at hp
  | cons loc ls ih =>
    intro off hoff hal p hp
    have hoff' : (off + FAT16_DIR_ENTRY_SIZE) % 2 ^ 32 < 2 ^ 32 := Nat.mod_lt _ (by norm_num)
    have hal' : (off + FAT16_DIR_ENTRY_SIZE) % 2 ^ 32 % FAT16_DIR_ENTRY_SIZE = 0 := by
      simp only [FAT16_DIR_ENTRY_SIZE] at *
      omega
    rw [Fat16.entriesFrom] at hp
    split at hp
    · rcases List.mem_cons.mp hp with rfl | hp
      · exact ⟨hoff, hal⟩
      · exact ih _ hoff' hal' p hp
    · exact ih _ hoff' hal' p hp

/-! ### The loop -/

section Loop

variable {dir : Inode} {l : List ℕ} {args : ℕ → ReaddirArgs}

/-- The calls of a loop, one by one. -/
theorem readdirLoop_cases (hm : fs.Mounted) (hd : fs.DirChain dir.ent.cluster l)
    (ha : ∀ k, (args k).Served) {k offset : ℕ} (hoff : offset < 2 ^ 32) {ds : List Dirent} :
    ReaddirLoop fs dir args k offset ds ↔
      (ds = [] ∧ (fs.readdirEnd (fs.header.dirSlots dir.ent.cluster l) offset (args k).max).out = []) ∨
      ∃ rest,
        (fs.readdirEnd (fs.header.dirSlots dir.ent.cluster l) offset (args k).max).out ≠ [] ∧
        ds = (fs.readdirEnd (fs.header.dirSlots dir.ent.cluster l) offset (args k).max).out ++ rest ∧
        ReaddirLoop fs dir args (k + 1)
          (fs.readdirEnd (fs.header.dirSlots dir.ent.cluster l) offset (args k).max).next rest := by
  have hcall := sysReaddir_ok hm hd hoff (ha k)
  constructor
  · intro h
    cases h with
    | done h =>
      rw [hcall] at h
      simp only [Option.some.injEq, Prod.mk.injEq] at h
      exact .inl ⟨rfl, h.1.2.2⟩
    | more h hr hrest =>
      rw [hcall] at h
      simp only [Option.some.injEq, Prod.mk.injEq] at h
      obtain ⟨⟨rfl, rfl, rfl⟩, -⟩ := h
      refine .inr ⟨_, ?_, rfl, hrest⟩
      intro hnil
      rw [hnil] at hr
      simp at hr
  · rintro (⟨rfl, hout⟩ | ⟨rest, hne, rfl, hrest⟩)
    · rw [hout] at hcall
      exact ReaddirLoop.done hcall
    · apply ReaddirLoop.more hcall _ hrest
      have := List.length_pos_of_ne_nil hne
      omega

theorem take_max_eq_nil (ha : ∀ k, (args k).Served) {α : Type} (k : ℕ) {xs : List α} :
    xs.take (args k).max.toNat = [] ↔ xs = [] := by
  have := (ha k).pos
  rw [List.take_eq_nil_iff]
  constructor
  · rintro (h | h)
    · omega
    · exact h
  · exact .inr

/-- If every resume position still has an entry to offer, no call ever returns `0`. -/
theorem not_readdirLoop_of_offered (hm : fs.Mounted) (hd : fs.DirChain dir.ent.cluster l)
    (ha : ∀ k, (args k).Served)
    (hall : ∀ offset, offset < 2 ^ 32 → offset % FAT16_DIR_ENTRY_SIZE = 0 →
      fs.offered offset 0 (fs.beforeEnd (fs.header.dirSlots dir.ent.cluster l)) ≠ [])
    {k offset : ℕ} {ds : List Dirent} (hoff : offset < 2 ^ 32)
    (hal : offset % FAT16_DIR_ENTRY_SIZE = 0) : ¬ReaddirLoop fs dir args k offset ds := by
  intro h
  induction h with
  | @done k offset offset' h =>
    rw [sysReaddir_ok hm hd hoff (ha k)] at h
    simp only [Option.some.injEq, Prod.mk.injEq] at h
    have hout := h.1.2.2
    rw [readdirEnd_out, List.map_eq_nil_iff, take_max_eq_nil ha] at hout
    exact hall offset hoff hal hout
  | @more k offset offset' r ds rest h _ _ ih =>
    rw [sysReaddir_ok hm hd hoff (ha k)] at h
    simp only [Option.some.injEq, Prod.mk.injEq] at h
    obtain ⟨⟨-, rfl, -⟩, -⟩ := h
    have hshape := walkFold_readdir_aligned fs
      (fs.beforeEnd (fs.header.dirSlots dir.ent.cluster l)) 0
      ⟨offset, offset, 0, (args k).max, []⟩ rfl ⟨hal, hoff⟩
    exact ih hshape.2 hshape.1

/-- **A first batch that fills up loses an entry**: the loop does not produce the complete listing. -/
theorem not_readdirLoop_of_full (hm : fs.Mounted) (hd : fs.DirChain dir.ent.cluster l)
    (ha : ∀ k, (args k).Served)
    (hfull : (args 0).max.toNat <
      (fs.entriesFrom 0 (fs.beforeEnd (fs.header.dirSlots dir.ent.cluster l))).length) :
    ¬ReaddirLoop fs dir args 0 0 (fs.listing (fs.header.dirSlots dir.ent.cluster l)) := by
  intro hloop
  set ls := fs.header.dirSlots dir.ent.cluster l with hls
  set es := fs.entriesFrom 0 (fs.beforeEnd ls) with hes
  have h := (readdirLoop_cases hm hd ha (by norm_num)).mp hloop
  -- the entry the first call stops on, and where it resumes
  obtain ⟨p, hp⟩ : ∃ p, es[(args 0).max.toNat]? = some p :=
    ⟨es[(args 0).max.toNat], List.getElem?_eq_getElem hfull⟩
  have hnext : (fs.readdirEnd ls 0 (args 0).max).next = nextOffset p.1 := by
    apply (walkFold_readdir fs (fs.beforeEnd ls) 0 ⟨0, 0, 0, (args 0).max, []⟩
      fun loc hloc => mem_beforeEnd_ne hloc).2
    simpa [ReaddirCtx.room, offered_zero, ← hes] using hp
  have hout : (fs.readdirEnd ls 0 (args 0).max).out =
      (es.take (args 0).max.toNat).map fs.direntAt := by
    rw [readdirEnd_out, offered_zero]
  have hpmem : p ∈ es := List.mem_of_getElem? hp
  have hpoff := entriesFrom_offset fs (fs.beforeEnd ls) 0 (by norm_num) rfl p hpmem
  rcases h with ⟨-, hnil⟩ | ⟨rest, -, hcat, hrest⟩
  · rw [hout, List.map_eq_nil_iff, take_max_eq_nil ha] at hnil
    rw [hnil] at hfull
    simp at hfull
  have hnextlt : nextOffset p.1 < 2 ^ 32 := Nat.mod_lt _ (by norm_num)
  rw [hnext, readdirLoop_cases hm hd ha hnextlt] at hrest
  -- the rest of the listing starts with the record of `p`
  have hrest_eq : rest = (es.drop (args 0).max.toNat).map fs.direntAt := by
    have hsplit : fs.listing ls = (es.take (args 0).max.toNat).map fs.direntAt ++
        (es.drop (args 0).max.toNat).map fs.direntAt := by
      rw [← List.map_append, List.take_append_drop]
      rfl
    rw [hsplit, hout] at hcat
    exact (List.append_cancel_left hcat).symm
  have hdrop : es.drop (args 0).max.toNat = p :: es.drop ((args 0).max.toNat + 1) := by
    rw [List.drop_eq_getElem_cons hfull]
    rw [List.getElem?_eq_getElem hfull] at hp
    rw [Option.some.inj hp]
  rw [hdrop, List.map_cons] at hrest_eq
  rcases hrest with ⟨hnil, -⟩ | ⟨rest', hne, hcat', -⟩
  · rw [hnil] at hrest_eq
    cases hrest_eq
  -- the second call's first record is one it was offered
  rw [readdirEnd_out] at hne hcat'
  obtain ⟨q, qs, hq⟩ : ∃ q qs, fs.offered (nextOffset p.1) 0 (fs.beforeEnd ls) = q :: qs := by
    cases hoff : fs.offered (nextOffset p.1) 0 (fs.beforeEnd ls) with
    | nil => rw [← hls, hoff] at hne; simp at hne
    | cons q qs => exact ⟨q, qs, rfl⟩
  obtain ⟨m, hm1⟩ : ∃ m, (args 1).max.toNat = m + 1 :=
    ⟨(args 1).max.toNat - 1, by have := (ha 1).pos; omega⟩
  have hhead : fs.direntAt p = fs.direntAt q := by
    rw [hrest_eq, ← hls, hq, Nat.zero_add, hm1] at hcat'
    simp only [List.take_succ_cons, List.map_cons, List.cons_append, List.cons.injEq] at hcat'
    exact hcat'.1
  have hoffset : p.1 = q.1 := congrArg Dirent.offset hhead
  have hqmem : q ∈ fs.offered (nextOffset p.1) 0 (fs.beforeEnd ls) := by rw [hq]; simp
  have hqge : nextOffset p.1 ≤ q.1 := by
    have := (List.mem_filter.mp hqmem).2
    simpa using this
  -- so `p` sits on the last slot below `2^32`, and with it every call finds something to deliver
  have hplast : p.1 + FAT16_DIR_ENTRY_SIZE = 2 ^ 32 := by
    simp only [nextOffset, FAT16_DIR_ENTRY_SIZE] at *
    omega
  apply not_readdirLoop_of_offered hm hd ha _ (by norm_num) rfl hloop
  intro offset hlt hal hnil
  have hmem : q ∈ fs.offered offset 0 (fs.beforeEnd ls) := by
    apply List.mem_filter.mpr
    refine ⟨(List.mem_filter.mp hqmem).1, ?_⟩
    simp only [decide_eq_true_eq, FAT16_DIR_ENTRY_SIZE] at *
    omega
  rw [hnil] at hmem
  simp at hmem

/-- **Exactly when a listing comes out complete.**  On every directory and for every sequence of served
requests, the caller's loop ends and delivers each entry once, in slot order, if and only if the first array
already holds them all and the position behind the last slot, a 32-bit number, is beyond every entry. -/
theorem readdirLoop_listing_iff (hm : fs.Mounted) (hd : fs.DirChain dir.ent.cluster l)
    (ha : ∀ k, (args k).Served) :
    ReaddirLoop fs dir args 0 0 (fs.listing (fs.header.dirSlots dir.ent.cluster l)) ↔
      ((fs.live (fs.header.dirSlots dir.ent.cluster l)).length ≤ (args 0).max ∧
        ∀ p ∈ fs.entriesFrom 0 (fs.beforeEnd (fs.header.dirSlots dir.ent.cluster l)),
          p.1 < FAT16_DIR_ENTRY_SIZE *
            (fs.beforeEnd (fs.header.dirSlots dir.ent.cluster l)).length % 2 ^ 32) := by
  set ls := fs.header.dirSlots dir.ent.cluster l with hls
  set es := fs.entriesFrom 0 (fs.beforeEnd ls) with hes
  have hlen : es.length = (fs.live ls).length := entriesFrom_length fs (fs.beforeEnd ls) 0
  have hpos := (ha 0).pos
  by_cases hfit : (fs.live ls).length ≤ (args 0).max
  · -- the first call delivers everything and resumes behind the last slot
    have hout : (fs.readdirEnd ls 0 (args 0).max).out = fs.listing ls := by
      rw [readdirEnd_out, offered_zero, List.take_of_length_le (by rw [← hes]; omega)]
      rfl
    have hnext : (fs.readdirEnd ls 0 (args 0).max).next =
        FAT16_DIR_ENTRY_SIZE * (fs.beforeEnd ls).length % 2 ^ 32 := by
      have h := walkFold_readdir_end fs (fs.beforeEnd ls) 0 ⟨0, 0, 0, (args 0).max, []⟩
        (fun loc hloc => mem_beforeEnd_ne hloc) rfl rfl (by norm_num)
        (by rw [offered_zero, ← hes]; simp only [ReaddirCtx.room, List.length_nil]; omega)
      rw [Fat16.readdirEnd, h, Nat.zero_add]
    rw [readdirLoop_cases hm hd ha (by norm_num), ← hls, hout, hnext]
    have hnextlt : FAT16_DIR_ENTRY_SIZE * (fs.beforeEnd ls).length % 2 ^ 32 < 2 ^ 32 :=
      Nat.mod_lt _ (by norm_num)
    have hnone : (∀ p ∈ es, p.1 < FAT16_DIR_ENTRY_SIZE * (fs.beforeEnd ls).length % 2 ^ 32) ↔
        fs.offered (FAT16_DIR_ENTRY_SIZE * (fs.beforeEnd ls).length % 2 ^ 32) 0
          (fs.beforeEnd ls) = [] := by
      rw [Fat16.offered, List.filter_eq_nil_iff, ← hes]
      simp only [decide_eq_true_eq, not_le]
    simp only [hfit, true_and]
    constructor
    · rintro (⟨hnil, -⟩ | ⟨rest, -, hcat, hrest⟩)
      · have hes' : es = [] := List.map_eq_nil_iff.mp hnil
        simp [hes']
      · have hrest' : rest = [] := by
          have := congrArg List.length hcat
          rw [List.length_append] at this
          exact List.length_eq_zero_iff.mp (by omega)
        subst hrest'
        rw [hnone]
        rw [readdirLoop_cases hm hd ha hnextlt] at hrest
        rcases hrest with ⟨-, hnil⟩ | ⟨rest, hne, hcat, -⟩
        · rw [readdirEnd_out, List.map_eq_nil_iff, take_max_eq_nil ha] at hnil
          exact hnil
        · rw [eq_comm, List.append_eq_nil_iff] at hcat
          exact absurd hcat.1 hne
    · intro hbeyond
      by_cases hempty : fs.listing ls = []
      · exact .inl ⟨hempty, hempty⟩
      · refine .inr ⟨[], hempty, by simp, ?_⟩
        rw [readdirLoop_cases hm hd ha hnextlt]
        left
        rw [readdirEnd_out, ← hls, hnone.mp hbeyond]
        simp
  · simp only [hfit, false_and, iff_false]
    apply not_readdirLoop_of_full hm hd ha
    rw [← hls, ← hes]
    omega

end Loop

/-! ### A small volume

One sector per cluster, one FAT of one sector, a root directory of sixteen slots and the data clusters `2` to
`5`: large enough for every counterexample below. -/

def smallHeader : FatHeader where
  bytesPerSector := 512
  sectorsPerCluster := 1
  reservedSectorCount := 1
  numFats := 1
  rootEntryCount := 16
  totalSectors16 := 7
  fatSize16 := 1
  totalSectors32 := 0

def smallVolume (fat root : Buf) (data : ℕ → Buf) : Fat16 where
  header := smallHeader
  disk := fun lba => if lba = 1 then fat else if lba = 2 then root else data lba
  fatCache := some fat
  readOnly := false
  ioFaults := []
  allocFaults := []

theorem smallHeader_sound : smallHeader.Sound where
  bps := rfl
  spc := by decide
  fats := by decide
  covers := by decide

theorem smallVolume_mounted (fat root : Buf) (data : ℕ → Buf) :
    (smallVolume fat root data).Mounted where
  sound := smallHeader_sound
  cache := by
    intro cache hcache j hj
    obtain rfl := Option.some.inj hcache
    have hbytes : smallHeader.fatBytes = 512 := by decide
    have hj' : j < 512 := Nat.lt_of_lt_of_eq hj hbytes
    have hsector : (smallVolume fat root data).header.fatStartLba + j / 512 = 1 := by
      rw [Nat.div_eq_of_lt hj']
      rfl
    rw [hsector, Nat.mod_eq_of_lt hj']
    rfl
  noFaults := ⟨rfl, rfl⟩

/-- The table of a small volume. -/
theorem smallVolume_fatAt (fat root : Buf) (data : ℕ → Buf) {c : ℕ} (hc : c < 256) :
    (smallVolume fat root data).fatAt c = (le16 fat (c * 2)).toNat := by
  have hsector : (smallVolume fat root data).header.fatStartLba + c * 2 / 512 = 1 := by
    rw [Nat.div_eq_of_lt (by omega)]
    rfl
  rw [Fat16.fatAt, hsector, Nat.mod_eq_of_lt (by omega)]
  rfl

/-- A table in which the clusters of the list are single-cluster chains. -/
def fatOf (used : List ℕ) : Buf := fun j =>
  if (j / 2) ∈ used then leByte FAT16_EOC (j % 2) else 0

/-- A directory sector with the given entries; the rest is zero. -/
def sectorOf (es : List Fat16Directory) : Buf :=
  fun j => (es.getD (j / 32) Fat16Directory.zero).toBytes (j % 32)

/-- A file entry without extension. -/
def fileEntry (name : CStr) (cluster size : ℕ) : Fat16Directory :=
  { Fat16Directory.zero with
    name := pad8 name
    extension := pad3 []
    attributes := FAT16_ATTR_ARCHIVE
    firstClusterLow := UInt16.ofNat cluster
    fileSizeBytes := UInt32.ofNat size }

/-- Requests for one record each. -/
def oneRecord (_ : ℕ) : ReaddirArgs := ⟨0x1000, 1⟩

theorem oneRecord_served (k : ℕ) : (oneRecord k).Served := by
  have h : (⟨0x1000, 1⟩ : ReaddirArgs).Served := ⟨by decide, by decide, by decide⟩
  exact h

/-- A root directory with the files `A` and `B`. -/
def twoFiles : Fat16 :=
  smallVolume (fun _ => 0) (sectorOf [fileEntry [0x41] 0 0, fileEntry [0x42] 0 0]) fun _ _ => 0

/-- A root directory with the file `A`. -/
def oneFile : Fat16 :=
  smallVolume (fun _ => 0) (sectorOf [fileEntry [0x41] 0 0]) fun _ _ => 0

theorem readdirLoop_listing_oneFile :
    ReaddirLoop oneFile rootInode oneRecord 0 0
      (oneFile.listing (oneFile.header.dirSlots rootInode.ent.cluster [])) :=
  (readdirLoop_listing_iff (smallVolume_mounted _ _ _) (.inl ⟨rfl, rfl⟩) oneRecord_served).mpr
    ⟨by decide, by decide⟩

/-- Two files read one at a time: the second one is never delivered. -/
theorem not_readdirLoop_listing_twoFiles :
    ¬ReaddirLoop twoFiles rootInode oneRecord 0 0
      (twoFiles.listing (twoFiles.header.dirSlots rootInode.ent.cluster [])) :=
  not_readdirLoop_of_full (smallVolume_mounted _ _ _) (.inl ⟨rfl, rfl⟩) oneRecord_served (by decide)

end LizardOs.Fat
