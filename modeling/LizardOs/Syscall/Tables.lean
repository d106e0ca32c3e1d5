import LizardOs.Syscall.Files
import LizardOs.Vfs.Handles
import Mathlib.Data.List.Nodup

/-!
# Descriptor tables

What a system call does to the tables and to the open files: nothing, it puts a file it has opened into a free slot, or
it closes the file of a slot.  So every descriptor leads to a file that is open and that no other descriptor leads to,
and every file that was ever put into a table is still there or was closed once.
-/

namespace LizardOs.Syscall

open LizardOs.Lib LizardOs.Vfs

variable {φ ι : Type} {ops : FsOps φ ι}

namespace FileState

variable {s s' : FileState φ ι} {t i id : ℕ}

/-- The numbers of the open files. -/
def openIds (s : FileState φ ι) : List ℕ := s.vfs.openFiles.map Prod.fst

/-! ### What a call can do -/

/-- The tables are as before; a file may have been opened and closed again. -/
structure Kept (s s' : FileState φ ι) : Prop where
  ledger : s'.vfs.ledger = s.vfs.ledger ∨
    s'.vfs.ledger = (s.vfs.openFiles, s.vfs.nextFile + 1, s.vfs.nextFile :: s.vfs.closed)
  table : s'.fdTable = s.fdTable
  given : s'.given = s.given

/-- A file was opened and put into a free slot. -/
structure OpenedAt (s : FileState φ ι) (t i flags : ℕ) (s' : FileState φ ι) : Prop where
  free : s.fdTable t i = none
  slot : i < TASK_MAX_FDS
  ledger : s'.vfs.ledger = (s.vfs.openFiles ++ [(s.vfs.nextFile, flags)], s.vfs.nextFile + 1, s.vfs.closed)
  table : s'.fdTable = Function.update s.fdTable t (Function.update (s.fdTable t) i (some s.vfs.nextFile))
  given : s'.given = (t, s.vfs.nextFile) :: s.given

/-- The file of a slot was closed. -/
structure ClosedAt (s : FileState φ ι) (t i id : ℕ) (s' : FileState φ ι) : Prop where
  held : s.fdTable t i = some id
  ledger : s'.vfs.ledger = (s.vfs.openFiles.eraseP fun p => decide (p.1 = id), s.vfs.nextFile, id :: s.vfs.closed)
  table : s'.fdTable = Function.update s.fdTable t (Function.update (s.fdTable t) i none)
  given : s'.given = s.given

/-- What a call can do to tables and open files. -/
def Moved (s : FileState φ ι) (t : ℕ) (s' : FileState φ ι) : Prop :=
  Kept s s' ∨ (∃ i flags, OpenedAt s t i flags s') ∨ ∃ i id, ClosedAt s t i id s'

/-! ### The invariant -/

/-- Descriptors lead to open files, one each, and no file that was put into a table is lost or closed twice. -/
structure Tables (s : FileState φ ι) : Prop where
  fresh : ∀ id ∈ s.openIds, id < s.vfs.nextFile
  nodup : s.openIds.Nodup
  closedOld : ∀ id ∈ s.vfs.closed, id < s.vfs.nextFile
  givenOld : ∀ p ∈ s.given, p.2 < s.vfs.nextFile
  slot : ∀ t i id, s.fdTable t i = some id → i < TASK_MAX_FDS
  known : ∀ t i id, s.fdTable t i = some id → id ∈ s.openIds ∧ (t, id) ∈ s.given
  alone : ∀ t i t' i' id, s.fdTable t i = some id → s.fdTable t' i' = some id → t = t' ∧ i = i'
  once : ∀ t id, (t, id) ∈ s.given →
    (∃ i, s.fdTable t i = some id) ∧ id ∉ s.vfs.closed ∨
    (∀ t' i, s.fdTable t' i ≠ some id) ∧ s.vfs.closed.count id = 1 ∧ id ∉ s.openIds

theorem ledger_inj {p : List (ℕ × ℕ) × ℕ × List ℕ} (h : s.vfs.ledger = p) :
    s.vfs.openFiles = p.1 ∧ s.vfs.nextFile = p.2.1 ∧ s.vfs.closed = p.2.2 := by
  rw [← h]
  exact ⟨rfl, rfl, rfl⟩

theorem openIds_eq {s : FileState φ ι} {l : List (ℕ × ℕ)} (h : s.vfs.openFiles = l) : s.openIds = l.map Prod.fst := by
  rw [openIds, h]

/-- One slot of a table that was changed there. -/
theorem update_slot {table : ℕ → ℕ → Option ℕ} {t i t' i' : ℕ} {f : Option ℕ} (h : ¬(t' = t ∧ i' = i)) :
    Function.update table t (Function.update (table t) i f) t' i' = table t' i' := by
  by_cases ht : t' = t
  · subst ht
    rw [Function.update_self, Function.update_of_ne fun hi => h ⟨rfl, hi⟩]
  · rw [Function.update_of_ne ht]

theorem update_slot_self {table : ℕ → ℕ → Option ℕ} {t i : ℕ} {f : Option ℕ} :
    Function.update table t (Function.update (table t) i f) t i = f := by
  rw [Function.update_self, Function.update_self]

theorem Tables.kept (h : Tables s) (hk : Kept s s') : Tables s' := by
  obtain ⟨hledger, htable, hgiven⟩ := hk
  have hopen : s'.vfs.openFiles = s.vfs.openFiles := by
    obtain hl | hl := hledger
    · exact (ledger_inj hl).1
    · exact (ledger_inj hl).1
  have hids : s'.openIds = s.openIds := openIds_eq hopen
  have hnext : s.vfs.nextFile ≤ s'.vfs.nextFile := by
    obtain hl | hl := hledger
    · exact (ledger_inj hl).2.1.ge
    · have hn : s'.vfs.nextFile = s.vfs.nextFile + 1 := (ledger_inj hl).2.1
      omega
  have hold : ∀ id ∈ s'.vfs.closed, id < s'.vfs.nextFile := by
    intro id hid
    obtain hl | hl := hledger
    · have hc : s'.vfs.closed = s.vfs.closed := (ledger_inj hl).2.2
      rw [hc] at hid
      exact lt_of_lt_of_le (h.closedOld id hid) hnext
    · have hn : s'.vfs.nextFile = s.vfs.nextFile + 1 := (ledger_inj hl).2.1
      have hc : s'.vfs.closed = s.vfs.nextFile :: s.vfs.closed := (ledger_inj hl).2.2
      rw [hc, List.mem_cons] at hid
      obtain rfl | hid := hid
      · omega
      · have := h.closedOld id hid
        omega
  -- a number that was given out before is closed now as often as before
  have hcount : ∀ id < s.vfs.nextFile, s'.vfs.closed.count id = s.vfs.closed.count id := by
    intro id hid
    obtain hl | hl := hledger
    · have hc : s'.vfs.closed = s.vfs.closed := (ledger_inj hl).2.2
      rw [hc]
    · have hc : s'.vfs.closed = s.vfs.nextFile :: s.vfs.closed := (ledger_inj hl).2.2
      rw [hc, List.count_cons_of_ne (by omega)]
  refine ⟨fun id hid => ?_, hids ▸ h.nodup, hold, fun p hp => ?_, fun t i id => ?_, fun t i id => ?_,
    fun t i t' i' id => ?_, fun t id hid => ?_⟩
  · exact lt_of_lt_of_le (h.fresh id (hids ▸ hid)) hnext
  · exact lt_of_lt_of_le (h.givenOld p (hgiven ▸ hp)) hnext
  · rw [htable]
    exact h.slot t i id
  · rw [htable, hids, hgiven]
    exact h.known t i id
  · rw [htable]
    exact h.alone t i t' i' id
  · rw [hgiven] at hid
    have hlt : id < s.vfs.nextFile := h.givenOld (t, id) hid
    rw [htable, hids, ← List.count_eq_zero, hcount id hlt, List.count_eq_zero]
    exact h.once t id hid

theorem Tables.opened {flags : ℕ} (h : Tables s) (ho : OpenedAt s t i flags s') : Tables s' := by
  obtain ⟨hfree, hslot, hledger, htable, hgiven⟩ := ho
  obtain ⟨hopen, hnext, hclosed⟩ := ledger_inj hledger
  have hids : s'.openIds = s.openIds ++ [s.vfs.nextFile] := by
    rw [openIds_eq hopen, List.map_append]
    rfl
  have hnew : s.vfs.nextFile ∉ s.openIds := fun hm => absurd (h.fresh _ hm) (lt_irrefl _)
  -- a slot that leads to an old file is an old slot
  have hentry : ∀ t' i' id, s'.fdTable t' i' = some id →
      t' = t ∧ i' = i ∧ id = s.vfs.nextFile ∨ s.fdTable t' i' = some id := by
    intro t' i' id hid
    rw [htable] at hid
    by_cases hti : t' = t ∧ i' = i
    · obtain ⟨rfl, rfl⟩ := hti
      rw [update_slot_self] at hid
      exact .inl ⟨rfl, rfl, (Option.some.inj hid).symm⟩
    · rw [update_slot hti] at hid
      exact .inr hid
  have hlt : ∀ t' i' id, s.fdTable t' i' = some id → id < s.vfs.nextFile :=
    fun t' i' id hid => h.fresh id (h.known t' i' id hid).1
  refine ⟨fun id hid => ?_, ?_, fun id hid => ?_, fun p hp => ?_, fun t' i' id hid => ?_, fun t' i' id hid => ?_,
    fun t₁ i₁ t₂ i₂ id h₁ h₂ => ?_, fun t' id hid => ?_⟩
  · rw [hids, List.mem_append, List.mem_singleton] at hid
    rw [hnext]
    obtain hid | rfl := hid
    · exact Nat.lt_succ_of_lt (h.fresh id hid)
    · exact Nat.lt_succ_self _
  · rw [hids, ← List.concat_eq_append]
    exact h.nodup.concat hnew
  · rw [hclosed] at hid
    rw [hnext]
    exact Nat.lt_succ_of_lt (h.closedOld id hid)
  · rw [hgiven, List.mem_cons] at hp
    rw [hnext]
    obtain rfl | hp := hp
    · exact Nat.lt_succ_self _
    · exact Nat.lt_succ_of_lt (h.givenOld p hp)
  · obtain ⟨-, rfl, -⟩ | hid := hentry t' i' id hid
    · exact hslot
    · exact h.slot t' i' id hid
  · rw [hids, hgiven]
    obtain ⟨rfl, -, rfl⟩ | hid := hentry t' i' id hid
    · exact ⟨List.mem_append_right _ (List.mem_singleton_self _), List.mem_cons_self⟩
    · obtain ⟨hopen, hmem⟩ := h.known t' i' id hid
      exact ⟨List.mem_append_left _ hopen, List.mem_cons_of_mem _ hmem⟩
  · obtain ⟨rfl, rfl, rfl⟩ | h₁ := hentry t₁ i₁ id h₁
    · obtain ⟨rfl, rfl, -⟩ | h₂ := hentry t₂ i₂ _ h₂
      · exact ⟨rfl, rfl⟩
      · exact absurd (hlt _ _ _ h₂) (lt_irrefl _)
    · obtain ⟨-, -, rfl⟩ | h₂ := hentry t₂ i₂ id h₂
      · exact absurd (hlt _ _ _ h₁) (lt_irrefl _)
      · exact h.alone t₁ i₁ t₂ i₂ id h₁ h₂
  · rw [hgiven, List.mem_cons] at hid
    rw [hclosed, hids]
    obtain heq | hid := hid
    · obtain ⟨rfl, rfl⟩ := Prod.mk.inj heq
      refine .inl ⟨⟨i, by rw [htable, update_slot_self]⟩, fun hm => ?_⟩
      exact absurd (h.closedOld _ hm) (lt_irrefl _)
    · obtain ⟨⟨i', hi'⟩, hcl⟩ | ⟨hno, hcl, hop⟩ := h.once t' id hid
      · refine .inl ⟨⟨i', ?_⟩, hcl⟩
        rw [htable, update_slot]
        · exact hi'
        · rintro ⟨rfl, rfl⟩
          rw [hfree] at hi'
          cases hi'
      · have hlt := h.givenOld (t', id) hid
        refine .inr ⟨fun t₁ i₁ h₁ => ?_, hcl, fun hm => ?_⟩
        · obtain ⟨-, -, rfl⟩ | h₁ := hentry t₁ i₁ id h₁
          · exact absurd hlt (lt_irrefl _)
          · exact hno t₁ i₁ h₁
        · rw [List.mem_append, List.mem_singleton] at hm
          obtain hm | rfl := hm
          · exact hop hm
          · exact absurd hlt (lt_irrefl _)

/-- The numbers that stay open. -/
theorem mem_eraseP_ids {l : List (ℕ × ℕ)} {id x : ℕ} (hnodup : (l.map Prod.fst).Nodup) :
    x ∈ (l.eraseP fun p => decide (p.1 = id)).map Prod.fst ↔ x ∈ l.map Prod.fst ∧ x ≠ id := by
  have hmap : (l.eraseP fun p => decide (p.1 = id)).map Prod.fst = (l.map Prod.fst).erase id := by
    rw [List.erase_eq_eraseP, List.eraseP_map]
    congr 2
    funext p
    rw [Function.comp_apply, Bool.beq_eq_decide_eq]
    exact decide_eq_decide.mpr ⟨Eq.symm, Eq.symm⟩
  rw [hmap, hnodup.mem_erase_iff, and_comm]

theorem Tables.closed (h : Tables s) (hc : ClosedAt s t i id s') : Tables s' := by
  obtain ⟨hheld, hledger, htable, hgiven⟩ := hc
  obtain ⟨hopen, hnext, hclosed⟩ := ledger_inj hledger
  have hids : ∀ x, x ∈ s'.openIds ↔ x ∈ s.openIds ∧ x ≠ id := by
    intro x
    rw [openIds_eq hopen]
    exact mem_eraseP_ids h.nodup
  -- a slot that still leads to a file is another slot
  have hentry : ∀ t' i' x, s'.fdTable t' i' = some x → s.fdTable t' i' = some x ∧ ¬(t' = t ∧ i' = i) := by
    intro t' i' x hx
    rw [htable] at hx
    by_cases hti : t' = t ∧ i' = i
    · obtain ⟨rfl, rfl⟩ := hti
      rw [update_slot_self] at hx
      cases hx
    · rw [update_slot hti] at hx
      exact ⟨hx, hti⟩
  have hother : ∀ t' i' x, s.fdTable t' i' = some x → ¬(t' = t ∧ i' = i) → x ≠ id := by
    rintro t' i' x hx hti rfl
    exact hti (h.alone t' i' t i x hx hheld)
  obtain ⟨hidopen, hidgiven⟩ := h.known t i id hheld
  refine ⟨fun x hx => ?_, ?_, fun x hx => ?_, fun p hp => ?_, fun t' i' x hx => ?_, fun t' i' x hx => ?_,
    fun t₁ i₁ t₂ i₂ x h₁ h₂ => ?_, fun t' x hx => ?_⟩
  · rw [hnext]
    exact h.fresh x ((hids x).mp hx).1
  · rw [openIds_eq hopen]
    exact h.nodup.sublist ((List.eraseP_sublist).map Prod.fst)
  · rw [hclosed, List.mem_cons] at hx
    rw [hnext]
    obtain rfl | hx := hx
    · exact h.fresh x hidopen
    · exact h.closedOld x hx
  · rw [hnext]
    exact h.givenOld p (hgiven ▸ hp)
  · exact h.slot t' i' x (hentry t' i' x hx).1
  · obtain ⟨hx, hti⟩ := hentry t' i' x hx
    rw [hids, hgiven]
    exact ⟨⟨(h.known t' i' x hx).1, hother t' i' x hx hti⟩, (h.known t' i' x hx).2⟩
  · exact h.alone t₁ i₁ t₂ i₂ x (hentry t₁ i₁ x h₁).1 (hentry t₂ i₂ x h₂).1
  · rw [hgiven] at hx
    rw [hclosed, hids]
    by_cases hxid : x = id
    · subst hxid
      obtain ⟨⟨i', hi'⟩, hnot⟩ | ⟨hno, -, -⟩ := h.once t' x hx
      · refine .inr ⟨fun t₁ i₁ h₁ => ?_, ?_, fun hm => hm.2 rfl⟩
        · obtain ⟨h₁, hti⟩ := hentry t₁ i₁ x h₁
          exact hother t₁ i₁ x h₁ hti rfl
        · rw [List.count_cons_self, List.count_eq_zero.mpr hnot]
      · exact absurd hheld (hno t i)
    · rw [List.count_cons_of_ne (Ne.symm hxid), List.mem_cons]
      obtain ⟨⟨i', hi'⟩, hnot⟩ | ⟨hno, hcl, hop⟩ := h.once t' x hx
      · refine .inl ⟨⟨i', ?_⟩, fun hm => hm.elim hxid hnot⟩
        rw [htable, update_slot]
        · exact hi'
        · rintro ⟨rfl, rfl⟩
          rw [hheld] at hi'
          exact hxid (Option.some.inj hi').symm
      · exact .inr ⟨fun t₁ i₁ h₁ => hno t₁ i₁ (hentry t₁ i₁ x h₁).1, hcl, fun hm => hop hm.1⟩

theorem Tables.moved (h : Tables s) (hm : Moved s t s') : Tables s' := by
  obtain hk | ⟨i, flags, ho⟩ | ⟨i, id, hc⟩ := hm
  · exact h.kept hk
  · exact h.opened ho
  · exact h.closed hc

/-! ### The calls -/

theorem Kept.refl (s : FileState φ ι) : Kept s s := ⟨.inl rfl, rfl, rfl⟩

/-- A call that leaves the open files alone. -/
theorem kept_of_ledger {vfs : VfsState φ ι} {cwd : ℕ → Name} (h : vfs.ledger = s.vfs.ledger) :
    Kept s { s with vfs := vfs, cwd := cwd } := ⟨.inl h, rfl, rfl⟩

/-- A file that was opened and is closed again leaves its number used. -/
theorem kept_of_passed {vfs : VfsState φ ι} {cwd : ℕ → Name} {flags : ℕ} (h : Tables s)
    (hopen : vfs.ledger = (s.vfs.openFiles ++ [(s.vfs.nextFile, flags)], s.vfs.nextFile + 1, s.vfs.closed)) :
    Kept s { s with vfs := vfs.vfsClose ops s.vfs.nextFile, cwd := cwd } := by
  refine ⟨.inr ?_, rfl, rfl⟩
  obtain ⟨hfiles, hrest⟩ := Prod.mk.inj hopen
  obtain ⟨hnext, hclosed⟩ := Prod.mk.inj hrest
  have hkeep : ∀ p ∈ s.vfs.openFiles, ¬decide (p.1 = s.vfs.nextFile) = true := by
    intro p hp hdec
    have hlt := h.fresh p.1 (List.mem_map_of_mem hp)
    rw [of_decide_eq_true hdec] at hlt
    exact lt_irrefl _ hlt
  have hlast : ([(s.vfs.nextFile, flags)].eraseP fun p => decide (p.1 = s.vfs.nextFile)) = [] := by
    rw [List.eraseP_cons, decide_eq_true rfl, cond_true]
  show (vfs.vfsClose ops s.vfs.nextFile).ledger = _
  rw [VfsState.vfsClose_ledger, hfiles, hnext, hclosed, List.eraseP_append_right _ hkeep, hlast, List.append_nil]

/-- The error of a path is negative. -/
theorem userPath_error {mem : Buf} {upath : UInt64} {max outsz : ℕ} {e : ℤ}
    (h : s.userPath t mem upath max outsz = .error e) : e < 0 := by
  rw [userPath, pathFrom] at h
  split at h
  · rename_i e' hcopy
    cases h
    rw [copyUserStr] at hcopy
    split at hcopy
    · cases hcopy
      decide
    · split at hcopy
      · cases hcopy
        decide
      · cases hcopy
  · split at h
    · cases h
      decide
    · cases h

/-- **`sys_open`** fails, or it returns the descriptor of the slot it has filled. -/
theorem sysOpen_cases (ops : FsOps φ ι) (h : Tables s) (t : ℕ) (mem : Buf) (upath flags : UInt64) :
    (s.sysOpen ops t mem upath flags).1 < 0 ∧ Kept s (s.sysOpen ops t mem upath flags).2 ∨
    ∃ i, (s.sysOpen ops t mem upath flags).1 = (TASK_FD_BASE + i : ℕ) ∧
      OpenedAt s t i (flags.toNat % 2 ^ 32) (s.sysOpen ops t mem upath flags).2 := by
  rw [sysOpen]
  cases hpath : s.userPath t mem upath 128 256 with
  | error e => exact .inl ⟨userPath_error hpath, Kept.refl s⟩
  | ok abspath =>
    simp only []
    cases hopen : s.vfs.vfsOpen ops abspath (flags.toNat % 2 ^ 32) with
    | mk r vfs =>
      cases r with
      | none =>
        have herr : -ENOENT < 0 := by decide
        exact .inl ⟨herr, kept_of_ledger (VfsState.vfsOpen_ledger_none ops hopen)⟩
      | some id =>
        obtain ⟨rfl, hledger⟩ := VfsState.vfsOpen_ledger ops hopen
        simp only []
        cases hslot : s.freeSlot t with
        | none =>
          have herr : -ENOMEM < 0 := by decide
          exact .inl ⟨herr, kept_of_passed h hledger⟩
        | some i =>
          rw [freeSlot] at hslot
          have hfree : (s.fdTable t i).isNone = true := by
            have hsome := List.find?_some hslot
            exact hsome
          have hlt : i < TASK_MAX_FDS := List.mem_range.mp (List.mem_of_find?_eq_some hslot)
          exact .inr ⟨i, rfl, Option.isNone_iff_eq_none.mp hfree, hlt, hledger, rfl, rfl⟩

theorem closeSlot_cases (ops : FsOps φ ι) (s : FileState φ ι) (t i : ℕ) :
    s.fdTable t i = none ∧ closeSlot ops t s i = s ∨ ∃ id, ClosedAt s t i id (closeSlot ops t s i) := by
  rw [closeSlot]
  cases hid : s.fdTable t i with
  | none => exact .inl ⟨rfl, rfl⟩
  | some id => exact .inr ⟨id, hid, VfsState.vfsClose_ledger ops s.vfs id, rfl, rfl⟩

/-- **`sys_close`** fails and changes nothing, or it closes the file of a slot. -/
theorem sysClose_cases (ops : FsOps φ ι) (s : FileState φ ι) (t : ℕ) (fd : UInt64) :
    (s.sysClose ops t fd).1 < 0 ∧ (s.sysClose ops t fd).2 = s ∨
    ∃ i id, (s.sysClose ops t fd).1 = 0 ∧ fdSlot fd = some i ∧ ClosedAt s t i id (s.sysClose ops t fd).2 := by
  have herr : -EBADF < 0 := by decide
  rw [sysClose]
  cases hslot : fdSlot fd with
  | none => exact .inl ⟨herr, rfl⟩
  | some i =>
    simp only []
    cases hid : s.fdTable t i with
    | none => exact .inl ⟨herr, rfl⟩
    | some id =>
      obtain ⟨hnone, -⟩ | ⟨id', hclosed⟩ := closeSlot_cases ops s t i
      · rw [hid] at hnone
        cases hnone
      · exact .inr ⟨i, id', rfl, rfl, hclosed⟩

theorem sysRead_kept (s : FileState φ ι) (t : ℕ) (fd ubuf len : UInt64) (buf : Buf) (line : Name) :
    Kept s (s.sysRead ops t fd ubuf len buf line).2.2 := by
  rw [sysRead]
  split
  · exact Kept.refl s
  · split
    · exact Kept.refl s
    · split
      · exact Kept.refl s
      · split
        · exact Kept.refl s
        · split
          · exact Kept.refl s
          · exact kept_of_ledger (VfsState.vfsRead_ledger ops s.vfs _ buf _)

theorem sysWrite_kept (s : FileState φ ι) (t : ℕ) (fd ubuf len : UInt64) (buf : Buf) :
    Kept s (s.sysWrite ops t fd ubuf len buf).2 := by
  rw [sysWrite]
  split
  · exact Kept.refl s
  · split
    · exact Kept.refl s
    · split
      · exact Kept.refl s
      · exact kept_of_ledger (VfsState.vfsWrite_ledger ops s.vfs _ buf _)

theorem sysLseek_kept (s : FileState φ ι) (t : ℕ) (fd off whence : UInt64) :
    Kept s (s.sysLseek ops t fd off whence).2 := by
  rw [sysLseek]
  split
  · exact Kept.refl s
  · split
    · exact Kept.refl s
    · split
      · exact Kept.refl s
      · simp only []
        split
        · exact Kept.refl s
        · exact kept_of_ledger (VfsState.setOffset_ledger s.vfs _ _)

theorem sysReaddir_kept (s : FileState φ ι) (t : ℕ) (fd ubuf max : UInt64) :
    Kept s (s.sysReaddir ops t fd ubuf max).2 := by
  rw [sysReaddir]
  split
  · exact Kept.refl s
  · split
    · exact Kept.refl s
    · split
      · exact Kept.refl s
      · split
        · exact Kept.refl s
        · split
          · exact Kept.refl s
          · exact kept_of_ledger (VfsState.setOffset_ledger _ _ _)

theorem probe_ledger {vfs vfs' : VfsState φ ι} {path : Name} {r : Option Bool} (h : probe ops vfs path = (r, vfs')) :
    vfs'.ledger = vfs.ledger := by
  have hlookup := VfsState.vfsPathLookup_handles ops vfs path
  rw [probe] at h
  cases hr : vfs.vfsPathLookup ops path with
  | mk d vfs₁ =>
    rw [hr] at hlookup h
    cases d with
    | none =>
      obtain ⟨-, rfl⟩ := Prod.mk.inj h
      exact VfsState.ledger_of_handles hlookup
    | some d =>
      obtain ⟨-, rfl⟩ := Prod.mk.inj h
      exact VfsState.ledger_of_handles ((VfsState.dentryPut_handles vfs₁ d).trans hlookup)

theorem sysChdir_kept (s : FileState φ ι) (t : ℕ) (mem : Buf) (upath : UInt64) :
    Kept s (s.sysChdir ops t mem upath).2 := by
  rw [sysChdir]
  split
  · exact Kept.refl s
  · split
    · rename_i hprobe
      exact kept_of_ledger (probe_ledger hprobe)
    · rename_i hprobe
      exact kept_of_ledger (probe_ledger hprobe)
    · rename_i hprobe
      exact kept_of_ledger (probe_ledger hprobe)

theorem sysMkdir_kept (s : FileState φ ι) (t : ℕ) (mem : Buf) (upath mode : UInt64) :
    Kept s (s.sysMkdir ops t mem upath mode).2 := by
  rw [sysMkdir]
  split
  · exact Kept.refl s
  · split
    · exact Kept.refl s
    · split
      · rename_i hprobe
        exact kept_of_ledger (probe_ledger hprobe)
      · rename_i vfs hprobe
        split
        · rename_i hparent
          exact kept_of_ledger ((probe_ledger hparent).trans (probe_ledger hprobe))
        · rename_i hparent
          exact kept_of_ledger ((probe_ledger hparent).trans (probe_ledger hprobe))
        · rename_i vfs' hparent
          have hmkdir : ∀ path, (vfs'.vfsMknod ops path (mode.toNat % 2 ^ 32) true).2.ledger = vfs'.ledger :=
            fun path => VfsState.ledger_of_handles (VfsState.vfsMknod_handles ops vfs' path _ true)
          exact kept_of_ledger ((hmkdir _).trans ((probe_ledger hparent).trans (probe_ledger hprobe)))

theorem doRemove_kept (s : FileState φ ι) (t : ℕ) (mem : Buf) (upath : UInt64) (wantDir : Bool) :
    Kept s (s.doRemove ops t mem upath wantDir).2 := by
  rw [doRemove]
  split
  · exact Kept.refl s
  · split
    · exact Kept.refl s
    · split
      · rename_i hprobe
        exact kept_of_ledger (probe_ledger hprobe)
      · rename_i vfs hprobe
        have hremove : ∀ path dir, (vfs.vfsRemove ops path dir).2.ledger = s.vfs.ledger := fun path dir =>
          (VfsState.ledger_of_handles (VfsState.vfsRemove_handles ops vfs path dir)).trans (probe_ledger hprobe)
        split
        · exact kept_of_ledger (probe_ledger hprobe)
        · split
          · exact kept_of_ledger (probe_ledger hprobe)
          · split
            · exact kept_of_ledger (hremove _ true)
            · exact kept_of_ledger (hremove _ false)

theorem readAt_ledger (vfs : VfsState φ ι) (id : ℕ) (places : List (ℕ × ℕ)) :
    (places.foldl (readAt ops id) vfs).ledger = vfs.ledger := by
  induction places generalizing vfs with
  | nil => rfl
  | cons place places ih =>
    rw [List.foldl_cons, ih, readAt, VfsState.vfsRead_ledger, VfsState.setOffset_ledger]

theorem spawn_kept (h : Tables s) (t : ℕ) (abspath : Name) (child : ℕ) (places : List (ℕ × ℕ)) :
    Kept s (s.spawn ops t abspath child places) := by
  rw [spawn]
  split
  · rename_i hopen
    exact kept_of_ledger (VfsState.vfsOpen_ledger_none ops hopen)
  · rename_i id vfs hopen
    obtain ⟨rfl, hledger⟩ := VfsState.vfsOpen_ledger ops hopen
    exact kept_of_passed h ((readAt_ledger vfs _ places).trans hledger)

theorem sysSpawn_kept (h : Tables s) (t : ℕ) (mem : Buf) (upath uargv : UInt64) (child : ℕ) (places : List (ℕ × ℕ)) :
    Kept s (s.sysSpawn ops t mem upath uargv child places) := by
  rw [sysSpawn]
  split
  · exact Kept.refl s
  · exact spawn_kept h t _ child places

/-- **Every call** but `exit` keeps the tables, fills a slot or empties one. -/
theorem exec_moved (h : Tables s) (t : ℕ) {c : FileCall} (hc : c ≠ .exit) : Moved s t (s.exec ops t c) := by
  cases c with
  | «open» mem upath flags =>
    obtain ⟨-, hk⟩ | ⟨i, -, ho⟩ := sysOpen_cases ops h t mem upath flags
    · exact .inl hk
    · exact .inr (.inl ⟨i, _, ho⟩)
  | close fd =>
    obtain ⟨-, heq⟩ | ⟨i, id, -, -, hcl⟩ := sysClose_cases ops s t fd
    · refine .inl ?_
      rw [exec, heq]
      exact Kept.refl s
    · exact .inr (.inr ⟨i, id, hcl⟩)
  | read fd ubuf len buf line => exact .inl (sysRead_kept s t fd ubuf len buf line)
  | write fd ubuf len buf => exact .inl (sysWrite_kept s t fd ubuf len buf)
  | lseek fd off whence => exact .inl (sysLseek_kept s t fd off whence)
  | readdir fd ubuf max => exact .inl (sysReaddir_kept s t fd ubuf max)
  | chdir mem upath => exact .inl (sysChdir_kept s t mem upath)
  | mkdir mem upath mode => exact .inl (sysMkdir_kept s t mem upath mode)
  | unlink mem upath => exact .inl (doRemove_kept s t mem upath false)
  | rmdir mem upath => exact .inl (doRemove_kept s t mem upath true)
  | spawn mem upath uargv child places => exact .inl (sysSpawn_kept h t mem upath uargv child places)
  | exit => exact absurd rfl hc

/-- A call changes the table of its own task only. -/
theorem Moved.table_of_ne {t' : ℕ} (h : Moved s t s') (ht : t' ≠ t) : s'.fdTable t' = s.fdTable t' := by
  obtain hk | ⟨i, flags, ho⟩ | ⟨i, id, hc⟩ := h
  · rw [hk.table]
  · rw [ho.table, Function.update_of_ne ht]
  · rw [hc.table, Function.update_of_ne ht]

/-- The loop of **`task_close_all_fds`** over some slots. -/
theorem Tables.closeSlots (h : Tables s) (t : ℕ) (l : List ℕ) :
    Tables (l.foldl (closeSlot ops t) s) ∧ (∀ t' ≠ t, (l.foldl (closeSlot ops t) s).fdTable t' = s.fdTable t') ∧
      ∀ i, i ∈ l ∨ s.fdTable t i = none → (l.foldl (closeSlot ops t) s).fdTable t i = none := by
  induction l generalizing s with
  | nil => exact ⟨h, fun _ _ => rfl, fun i hi => hi.resolve_left List.not_mem_nil⟩
  | cons j l ih =>
    rw [List.foldl_cons]
    obtain ⟨hnone, hsame⟩ | ⟨id, hc⟩ := closeSlot_cases ops s t j
    · rw [hsame]
      obtain ⟨htables, hother, hempty⟩ := ih h
      refine ⟨htables, hother, fun i hi => hempty i ?_⟩
      rw [List.mem_cons] at hi
      obtain (rfl | hi) | hi := hi
      · exact .inr hnone
      · exact .inl hi
      · exact .inr hi
    · obtain ⟨htables, hother, hempty⟩ := ih (h.closed hc)
      refine ⟨htables, fun t' ht => ?_, fun i hi => hempty i ?_⟩
      · rw [hother t' ht, hc.table, Function.update_of_ne ht]
      · rw [hc.table, Function.update_self]
        by_cases hij : i = j
        · rw [hij, Function.update_self]
          exact .inr rfl
        · rw [Function.update_of_ne hij]
          exact hi.imp_left fun hmem => (List.mem_cons.mp hmem).resolve_left hij

/-- **`task_close_all_fds`** empties the table of the task. -/
theorem Tables.taskCloseAllFds (ops : FsOps φ ι) (h : Tables s) (t : ℕ) :
    Tables (s.taskCloseAllFds ops t) ∧ (∀ t' ≠ t, (s.taskCloseAllFds ops t).fdTable t' = s.fdTable t') ∧
      ∀ i < TASK_MAX_FDS, (s.taskCloseAllFds ops t).fdTable t i = none := by
  obtain ⟨htables, hother, hempty⟩ := h.closeSlots t (List.range TASK_MAX_FDS)
  exact ⟨htables, hother, fun i hi => hempty i (.inl (List.mem_range.mpr hi))⟩

end FileState

end LizardOs.Syscall
