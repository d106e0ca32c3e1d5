import LizardOs.Vfs.Dentry

/-!
# Open files

Only `vfs_open` and `vfs_close` change which files are open: the functions on paths leave the list of open files alone,
and reading and writing move offsets.  `vfs_open` adds one file, under a number that was not given out before, with the
flags it was called with.
-/

namespace LizardOs.Vfs

variable {φ ι : Type} (ops : FsOps φ ι)

namespace VfsState

variable {s s' : VfsState φ ι} {d p id : ℕ} {name path : Name}

/-- The open files, the number the next one gets, and the files that were closed. -/
def handles (s : VfsState φ ι) : List (File ι) × ℕ × List ℕ := (s.files, s.nextFile, s.closed)

theorem dentryGet_handles (s : VfsState φ ι) (d : ℕ) : (s.dentryGet d).handles = s.handles := by
  rw [dentryGet]
  split <;> rfl

theorem dentryPut_handles (s : VfsState φ ι) (d : ℕ) : (s.dentryPut d).handles = s.handles := by
  rw [dentryPut]
  split <;> rfl

theorem dentryAlloc_handles (s : VfsState φ ι) (name : Name) : (s.dentryAlloc ops name).2.handles = s.handles := by
  rw [dentryAlloc]
  split <;> rfl

theorem dentryLookup_handles (s : VfsState φ ι) (p : ℕ) (name : Name) :
    (s.dentryLookup p name).2.handles = s.handles := by
  rw [dentryLookup]
  split
  · rfl
  · exact dentryGet_handles s _

theorem vfsLookup_handles (s : VfsState φ ι) (p : ℕ) (name : Name) :
    (s.vfsLookup ops p name).2.handles = s.handles := by
  rw [vfsLookup]
  have hlookup := dentryLookup_handles s p name
  cases hr : s.dentryLookup p name with
  | mk r s₁ =>
    rw [hr] at hlookup
    cases r with
    | some d => exact hlookup
    | none =>
      have halloc := dentryAlloc_handles ops s₁ name
      simp only []
      cases ha : s₁.dentryAlloc ops name with
      | mk r s₂ =>
        rw [ha] at halloc
        have hsame : s₂.handles = s.handles := halloc.trans hlookup
        cases r with
        | none => exact hsame
        | some d =>
          simp only []
          split
          · exact (dentryPut_handles s₂ d).trans hsame
          · split
            · exact (dentryGet_handles _ d).trans hsame
            · exact (dentryPut_handles _ d).trans hsame

theorem walkRel_handles : WalkRel fun s s' : VfsState φ ι => s'.handles = s.handles :=
  ⟨fun _ => rfl, fun h h' => h'.trans h, dentryGet_handles, dentryPut_handles⟩

theorem vfsPathLookup_handles (s : VfsState φ ι) (path : Name) :
    (s.vfsPathLookup ops path).2.handles = s.handles :=
  walkRel_handles.vfsPathLookup (fun n _ s p => vfsLookup_handles ops s p n) s

theorem vfsLookupParent_handles (s : VfsState φ ι) (path : Name) :
    (s.vfsLookupParent ops path).2.handles = s.handles :=
  walkRel_handles.vfsLookupParent (fun n _ _ s p => vfsLookup_handles ops s p n) s

theorem vfsMknod_handles (s : VfsState φ ι) (path : Name) (mode : ℕ) (dir : Bool) :
    (s.vfsMknod ops path mode dir).2.handles = s.handles := by
  rw [vfsMknod]
  have hparent := vfsLookupParent_handles ops s path
  cases hr : s.vfsLookupParent ops path with
  | mk r s₁ =>
    rw [hr] at hparent
    cases r with
    | none => exact hparent
    | some pl =>
      obtain ⟨parent, leaf⟩ := pl
      simp only []
      split
      · exact (dentryPut_handles s₁ parent).trans hparent
      · have hlookup := dentryLookup_handles s₁ parent leaf
        cases hl : s₁.dentryLookup parent leaf with
        | mk r s₂ =>
          rw [hl] at hlookup
          have hsame : s₂.handles = s.handles := hlookup.trans hparent
          cases r with
          | some d => exact (dentryPut_handles s₂ parent).trans hsame
          | none =>
            have halloc := dentryAlloc_handles ops s₂ leaf
            simp only []
            cases ha : s₂.dentryAlloc ops leaf with
            | mk r s₃ =>
              rw [ha] at halloc
              have hsame : s₃.handles = s.handles := halloc.trans hsame
              cases r with
              | none => exact (dentryPut_handles s₃ parent).trans hsame
              | some d =>
                refine (dentryPut_handles _ parent).trans ?_
                split
                · exact hsame
                · exact (dentryPut_handles _ d).trans hsame

theorem dropCached_handles (s : VfsState φ ι) (p : ℕ) (leaf : Name) : (s.dropCached p leaf).handles = s.handles := by
  rw [dropCached]
  have hlookup := dentryLookup_handles s p leaf
  cases hr : s.dentryLookup p leaf with
  | mk r s₁ =>
    rw [hr] at hlookup
    cases r with
    | none => exact hlookup
    | some d => exact ((dentryPut_handles _ d).trans (dentryPut_handles _ d)).trans hlookup

theorem vfsRemove_handles (s : VfsState φ ι) (path : Name) (dir : Bool) :
    (s.vfsRemove ops path dir).2.handles = s.handles := by
  rw [vfsRemove]
  have hparent := vfsLookupParent_handles ops s path
  cases hr : s.vfsLookupParent ops path with
  | mk r s₁ =>
    rw [hr] at hparent
    cases r with
    | none => exact hparent
    | some pl =>
      obtain ⟨parent, leaf⟩ := pl
      simp only []
      split
      · exact (dentryPut_handles s₁ parent).trans hparent
      · have halloc := dentryAlloc_handles ops s₁ leaf
        cases ha : s₁.dentryAlloc ops leaf with
        | mk r s₂ =>
          rw [ha] at halloc
          have hsame : s₂.handles = s.handles := halloc.trans hparent
          cases r with
          | none => exact (dentryPut_handles s₂ parent).trans hsame
          | some d =>
            refine ((dentryPut_handles _ parent).trans (dentryPut_handles _ d)).trans ?_
            split
            · exact (dropCached_handles _ parent leaf).trans hsame
            · exact hsame

/-! ### Opening and closing -/

/-- What `vfs_open` does to the open files. -/
def Opens (s : VfsState φ ι) (flags : ℕ) (r : Option ℕ × VfsState φ ι) : Prop :=
  match r.1 with
  | none => r.2.handles = s.handles
  | some id => id = s.nextFile ∧ ∃ inode d,
      r.2.handles = (s.files ++ [⟨id, inode, 0, flags, d⟩], s.nextFile + 1, s.closed)

theorem openDentry_opens (s : VfsState φ ι) (d flags : ℕ) : s.Opens flags (s.openDentry ops d flags) := by
  rw [openDentry]
  cases s.inodeOf d with
  | none => exact dentryPut_handles s d
  | some inode =>
    simp only []
    split
    · exact dentryPut_handles _ d
    · split
      · exact dentryPut_handles _ d
      · split
        · exact dentryPut_handles _ d
        · exact ⟨rfl, inode, d, rfl⟩

theorem Opens.of_handles {flags : ℕ} {r : Option ℕ × VfsState φ ι} (h : s'.Opens flags r)
    (hsame : s'.handles = s.handles) : s.Opens flags r := by
  obtain ⟨hfiles, hrest⟩ := Prod.mk.inj hsame
  obtain ⟨hnext, hclosed⟩ := Prod.mk.inj hrest
  unfold Opens at h ⊢
  rw [hsame, hfiles, hnext, hclosed] at h
  exact h

/-- **`vfs_open`** opens one file or none. -/
theorem vfsOpen_opens (s : VfsState φ ι) (path : Name) (flags : ℕ) : s.Opens flags (s.vfsOpen ops path flags) := by
  rw [vfsOpen]
  have hlookup := vfsPathLookup_handles ops s path
  cases hr : s.vfsPathLookup ops path with
  | mk r s₁ =>
    rw [hr] at hlookup
    cases r with
    | some d => exact (openDentry_opens ops s₁ d flags).of_handles hlookup
    | none =>
      simp only []
      split
      · have hcreate := vfsMknod_handles ops s₁ path 0 false
        cases hc : s₁.vfsCreate ops path 0 with
        | mk rc s₂ =>
          have hc' : s₁.vfsMknod ops path 0 false = (rc, s₂) := hc
          rw [hc'] at hcreate
          have hsame : s₂.handles = s.handles := hcreate.trans hlookup
          simp only []
          split
          · exact hsame
          · have hagain := vfsPathLookup_handles ops s₂ path
            cases hr₂ : s₂.vfsPathLookup ops path with
            | mk r s₃ =>
              rw [hr₂] at hagain
              cases r with
              | none => exact hagain.trans hsame
              | some d => exact (openDentry_opens ops s₃ d flags).of_handles (hagain.trans hsame)
      · exact hlookup

theorem vfsClose_handles (s : VfsState φ ι) (id : ℕ) :
    (s.vfsClose ops id).handles = (s.files.eraseP fun f => decide (f.id = id), s.nextFile, id :: s.closed) := by
  rw [vfsClose]
  cases hf : s.fileAt id with
  | none =>
    have hnone : ∀ f ∈ s.files, ¬decide (f.id = id) = true := fun f hfm => List.find?_eq_none.mp hf f hfm
    rw [List.eraseP_of_forall_not hnone]
    rfl
  | some f => exact dentryPut_handles _ f.dentry

/-! ### Numbers and flags -/

/-- The open files by number, with their flags. -/
def openFiles (s : VfsState φ ι) : List (ℕ × ℕ) := s.files.map fun f => (f.id, f.flags)

theorem openFiles_eq (h : s'.handles = s.handles) : s'.openFiles = s.openFiles := by
  have hfiles : s'.files = s.files := (Prod.mk.inj h).1
  rw [openFiles, hfiles, openFiles]

theorem setOffset_openFiles (s : VfsState φ ι) (id offset : ℕ) : (s.setOffset id offset).openFiles = s.openFiles := by
  rw [openFiles, setOffset, List.map_map, openFiles]
  apply List.map_congr_left
  intro f _
  by_cases hf : f.id = id
  · simp only [Function.comp_apply, if_pos hf]
  · simp only [Function.comp_apply, if_neg hf]

/-- The open files with their flags, the number the next one gets, and the files that were closed. -/
def ledger (s : VfsState φ ι) : List (ℕ × ℕ) × ℕ × List ℕ := (s.openFiles, s.nextFile, s.closed)

theorem ledger_of_handles (h : s'.handles = s.handles) : s'.ledger = s.ledger := by
  obtain ⟨-, hrest⟩ := Prod.mk.inj h
  obtain ⟨hnext, hclosed⟩ := Prod.mk.inj hrest
  rw [ledger, openFiles_eq h, hnext, hclosed, ledger]

theorem setOffset_ledger (s : VfsState φ ι) (id offset : ℕ) : (s.setOffset id offset).ledger = s.ledger := by
  rw [ledger, setOffset_openFiles]
  rfl

theorem advance_ledger (s : VfsState φ ι) (id offset : ℕ) (n : ℤ) : (s.advance id offset n).ledger = s.ledger := by
  rw [advance]
  split
  · exact setOffset_ledger s id _
  · rfl

theorem vfsRead_ledger (s : VfsState φ ι) (id : ℕ) (buf : Lib.Buf) (count : ℕ) :
    (s.vfsRead ops id buf count).2.2.ledger = s.ledger := by
  rw [vfsRead]
  split
  · rfl
  · split
    · rfl
    · exact advance_ledger _ id _ _

theorem vfsWrite_ledger (s : VfsState φ ι) (id : ℕ) (buf : Lib.Buf) (count : ℕ) :
    (s.vfsWrite ops id buf count).2.ledger = s.ledger := by
  rw [vfsWrite]
  split
  · rfl
  · split
    · rfl
    · exact (advance_ledger _ id _ _).trans (setOffset_ledger _ id _)

theorem vfsClose_openFiles (s : VfsState φ ι) (id : ℕ) :
    (s.vfsClose ops id).openFiles = s.openFiles.eraseP fun p => decide (p.1 = id) := by
  have hfiles : (s.vfsClose ops id).files = s.files.eraseP fun f => decide (f.id = id) :=
    (Prod.mk.inj (vfsClose_handles ops s id)).1
  rw [openFiles, hfiles, openFiles, List.eraseP_map]
  rfl

theorem vfsClose_ledger (s : VfsState φ ι) (id : ℕ) :
    (s.vfsClose ops id).ledger = (s.openFiles.eraseP fun p => decide (p.1 = id), s.nextFile, id :: s.closed) := by
  obtain ⟨-, hrest⟩ := Prod.mk.inj (vfsClose_handles ops s id)
  obtain ⟨hnext, hclosed⟩ := Prod.mk.inj hrest
  rw [ledger, vfsClose_openFiles, hnext, hclosed]

/-- What `vfs_open` leaves when it succeeds. -/
theorem vfsOpen_ledger {flags : ℕ} (h : s.vfsOpen ops path flags = (some id, s')) :
    id = s.nextFile ∧ s'.ledger = (s.openFiles ++ [(s.nextFile, flags)], s.nextFile + 1, s.closed) := by
  have hopens := vfsOpen_opens ops s path flags
  rw [h] at hopens
  obtain ⟨rfl, inode, d, hhandles⟩ := hopens
  obtain ⟨hfiles, hrest⟩ := Prod.mk.inj hhandles
  obtain ⟨hnext, hclosed⟩ := Prod.mk.inj hrest
  have hfiles : s'.files = s.files ++ [⟨s.nextFile, inode, 0, flags, d⟩] := hfiles
  refine ⟨rfl, ?_⟩
  rw [ledger, openFiles, hfiles, List.map_append, hnext, hclosed]
  rfl

theorem vfsOpen_ledger_none {flags : ℕ} (h : s.vfsOpen ops path flags = (none, s')) : s'.ledger = s.ledger := by
  have hopens := vfsOpen_opens ops s path flags
  rw [h] at hopens
  exact ledger_of_handles hopens

end VfsState

end LizardOs.Vfs
