import LizardOs.Fat.Readdir

/-!
# The two loops over a directory, compared

`fat16_create` and `fat16_unlink` search a name with `fat16_dir_find`, path resolution with `fat16_lookup`;
`fat16_rmdir` tests a directory with `fat16_dir_empty`, a listing walks it.  The first of each pair runs on the
slot scanner, the second on the walk.  The two searches agree on every image (`fat16Lookup_eq_fat16DirFind`).
The emptiness test does not stop at the end marker, so it and the walk agree exactly on the images that
`Fat16.EndsClean` describes (`fat16DirEmpty_iff_walk`).

None of this needs a sound header or a table in step with its copy: the chain of a directory is the one the
links form as the code reads them.
-/

namespace LizardOs.Fat

open LizardOs.Lib

variable {fs : Fat16}

/-! ### Looking a name up -/

/-- What `lookup_cb` answers on a slot when the inode can be built. -/
def Fat16.lookupStep (fs : Fat16) (name : CStr) (loc : DirLoc) (_ : ℕ) (ctx : Option Inode) :
    ℤ × Option Inode :=
  if fat16EntryValid (fs.entryAt loc) = false then (0, ctx)
  else if fat16NameCmp name (fs.entryAt loc) ≠ 0 then (0, ctx)
  else (1, some (Inode.ofEntry (fs.entryAt loc) loc))

theorem lookupCb_pure (hf : fs.NoFaults) (name : CStr) (ls : List DirLoc) :
    DirPure fs (lookupCb name) (fs.lookupStep name) ls := by
  intro loc _ off ctx
  simp only [lookupCb, Fat16.lookupStep, fat16MakeInode, Prog.ite_apply, Prog.bind_apply,
    zalloc_ok hf, Prog.obind_some, if_true, Prog.pure_apply]
  split
  · rfl
  · split <;> rfl

theorem walkFold_lookup (fs : Fat16) (name : CStr) (ls : List DirLoc) : ∀ off,
    (if (fs.walkFold (fs.lookupStep name) ls ⟨0, off, false, none⟩).code = 1 then
        (fs.walkFold (fs.lookupStep name) ls ⟨0, off, false, none⟩).ctx else none) =
      (fs.findIn name ls).map fun loc => Inode.ofEntry (fs.entryAt loc) loc := by
  induction ls with
  | nil => intro off; rfl
  | cons loc ls ih =>
    intro off
    by_cases hend : fs.firstByte loc = FAT16_DIR_ENTRY_END
    · simp [Fat16.walkFold, hend, Fat16.findIn, Fat16.live, Fat16.beforeEnd]
    by_cases hv : fat16EntryValid (fs.entryAt loc) = false
    · have hlive : fs.live (loc :: ls) = fs.live ls := by
        simp [Fat16.live, Fat16.beforeEnd, hend, hv]
      have hstep : fs.lookupStep name loc off none = (0, none) := by
        simp [Fat16.lookupStep, hv]
      simp only [Fat16.walkFold, hend, hstep, ne_eq, not_true_eq_false, if_false, Fat16.findIn,
        hlive]
      exact ih _
    have hlive : fs.live (loc :: ls) = loc :: fs.live ls := by
      simp [Fat16.live, Fat16.beforeEnd, hend, hv]
    by_cases hcmp : fat16NameCmp name (fs.entryAt loc) = 0
    · have hstep : fs.lookupStep name loc off none =
          (1, some (Inode.ofEntry (fs.entryAt loc) loc)) := by
        simp [Fat16.lookupStep, hv, hcmp]
      simp [Fat16.walkFold, hend, hstep, Fat16.findIn, hlive, hcmp]
    · have hstep : fs.lookupStep name loc off none = (0, none) := by
        simp [Fat16.lookupStep, hv, hcmp]
      have hfind : fs.findIn name (loc :: ls) = fs.findIn name ls := by
        simp [Fat16.findIn, hlive, hcmp]
      simp only [Fat16.walkFold, hend, hstep, ne_eq, not_true_eq_false, if_false, hfind]
      exact ih _

/-- **Looking a name up**: the inode of the first live slot of that name. -/
theorem fat16Lookup_path (hf : fs.NoFaults) {dir : Inode} {l : List ℕ}
    (hd : fs.DirPath dir.ent.cluster l) (name : CStr) :
    fat16Lookup dir name fs =
      some ((fs.findIn name (fs.header.dirSlots dir.ent.cluster l)).map
        fun loc => Inode.ofEntry (fs.entryAt loc) loc, fs) := by
  rw [← walkFold_lookup fs name _ 0]
  simp only [fat16Lookup, Prog.bind_apply,
    fat16WalkDir_path hf hd none (lookupCb_pure hf name _), Prog.obind_some, Prog.pure_apply]

theorem leByte_le16 (b : Buf) (i : ℕ) :
    leByte (le16 b i).toNat 0 = b i ∧ leByte (le16 b i).toNat 1 = b (i + 1) := by
  have h0 := (b i).toNat_lt
  have h1 := (b (i + 1)).toNat_lt
  refine ⟨UInt8.toNat.inj ?_, UInt8.toNat.inj ?_⟩
  · rw [leByte_toNat, le16_toNat]
    omega
  · rw [leByte_toNat, le16_toNat]
    omega

theorem leByte_le32 (b : Buf) (i : ℕ) :
    leByte (le32 b i).toNat 0 = b i ∧ leByte (le32 b i).toNat 1 = b (i + 1) ∧
      leByte (le32 b i).toNat 2 = b (i + 2) ∧ leByte (le32 b i).toNat 3 = b (i + 3) := by
  have h0 := (b i).toNat_lt
  have h1 := (b (i + 1)).toNat_lt
  have h2 := (b (i + 2)).toNat_lt
  have h3 := (b (i + 3)).toNat_lt
  refine ⟨UInt8.toNat.inj ?_, UInt8.toNat.inj ?_, UInt8.toNat.inj ?_, UInt8.toNat.inj ?_⟩
  all_goals
    rw [leByte_toNat, le32_toNat]
    omega

/-- Decoding a slot keeps its 32 bytes. -/
theorem Fat16Directory.toBytes_ofBytes (b : Buf) {j : ℕ} (hj : j < 32) :
    (Fat16Directory.ofBytes b).toBytes j = b j :=
  match j, hj with
  | 0, _ | 1, _ | 2, _ | 3, _ | 4, _ | 5, _ | 6, _ | 7, _ | 8, _ | 9, _ | 10, _ | 11, _ | 12, _
  | 13, _ => rfl
  | 14, _ => (leByte_le16 b 14).1
  | 15, _ => (leByte_le16 b 14).2
  | 16, _ => (leByte_le16 b 16).1
  | 17, _ => (leByte_le16 b 16).2
  | 18, _ => (leByte_le16 b 18).1
  | 19, _ => (leByte_le16 b 18).2
  | 20, _ => (leByte_le16 b 20).1
  | 21, _ => (leByte_le16 b 20).2
  | 22, _ => (leByte_le16 b 22).1
  | 23, _ => (leByte_le16 b 22).2
  | 24, _ => (leByte_le16 b 24).1
  | 25, _ => (leByte_le16 b 24).2
  | 26, _ => (leByte_le16 b 26).1
  | 27, _ => (leByte_le16 b 26).2
  | 28, _ => (leByte_le32 b 28).1
  | 29, _ => (leByte_le32 b 28).2.1
  | 30, _ => (leByte_le32 b 28).2.2.1
  | 31, _ => (leByte_le32 b 28).2.2.2
  | n + 32, h => absurd h (by omega)

/-- **Both searches find the same slot**, with the 32 bytes it holds, or both find nothing. -/
theorem fat16Lookup_eq_fat16DirFind (hf : fs.NoFaults) {dir : Inode} {l : List ℕ}
    (hd : fs.DirPath dir.ent.cluster l) (name : CStr) :
    ∃ (found : Option (DirLoc × Fat16Directory)) (inode : Option Inode),
      fat16DirFind dir.ent.cluster name fs = some (found, fs) ∧
      fat16Lookup dir name fs = some (inode, fs) ∧
      inode.map (fun ino => (ino.loc, ino.ent)) = found ∧
      ∀ loc ent, found = some (loc, ent) →
        ∀ j < FAT16_DIR_ENTRY_SIZE, ent.toBytes j = fs.disk loc.lba (loc.off + j) := by
  refine ⟨_, _, fat16DirFind_path hf hd name, fat16Lookup_path hf hd name, ?_, ?_⟩
  · rw [Option.map_map]
    rfl
  · intro loc ent h j hj
    obtain ⟨loc', -, heq⟩ := Option.map_eq_some_iff.mp h
    obtain ⟨rfl, rfl⟩ := Prod.mk.inj heq
    exact Fat16Directory.toBytes_ofBytes _ hj

/-- A subdirectory in cluster `2` with the entry `A`, and the entry `B` behind its end marker. -/
def staleTail : Fat16 :=
  smallVolume (fun j => if j < 4 then 0 else if j < 6 then 0xFF else 0) (fun _ => 0) fun _ =>
    sectorOf [fileEntry [0x41] 0 0, Fat16Directory.zero, fileEntry [0x42] 0 0]

/-- The directory of `staleTail`. -/
def dirInode : Inode :=
  Inode.ofEntry { fileEntry [0x44] 2 0 with attributes := FAT16_ATTR_DIRECTORY } ⟨2, 0⟩

theorem staleTail_dirPath : staleTail.DirPath 2 [2] :=
  .inr ⟨by decide, 0xFFFF, ⟨rfl, by decide, path_nil.mpr (by decide)⟩, by decide⟩

theorem fat16Lookup_eq_fat16DirFind_staleTail :
    ∃ (found : Option (DirLoc × Fat16Directory)) (inode : Option Inode),
      fat16DirFind dirInode.ent.cluster [0x61] staleTail = some (found, staleTail) ∧
      fat16Lookup dirInode [0x61] staleTail = some (inode, staleTail) ∧
      inode.map (fun ino => (ino.loc, ino.ent)) = found ∧
      ∀ loc ent, found = some (loc, ent) → ∀ j < FAT16_DIR_ENTRY_SIZE,
        ent.toBytes j = staleTail.disk loc.lba (loc.off + j) :=
  fat16Lookup_eq_fat16DirFind ⟨rfl, rfl⟩ staleTail_dirPath [0x61]

/-! ### Emptiness -/

/-- The callback of a full listing: collect the entries in use other than `.` and `..`, never stop. -/
def collectChildren : DirCb (List DirLoc) := fun e _ loc ctx =>
  if fat16EntryValid e && !fat16IsDot e then pure (0, ctx ++ [loc]) else pure (0, ctx)

theorem collectChildren_pure (ls : List DirLoc) :
    DirPure fs collectChildren
      (fun loc _ ctx => (0, if fs.child loc then ctx ++ [loc] else ctx)) ls := by
  intro loc _ off ctx
  simp only [collectChildren, Prog.ite_apply, Prog.pure_apply]
  show (if fs.child loc then _ else _) = _
  split <;> rfl

theorem walkFold_collect (fs : Fat16) (ls : List DirLoc) : ∀ (off : ℕ) (acc : List DirLoc),
    (fs.walkFold (fun loc _ ctx => (0, if fs.child loc then ctx ++ [loc] else ctx)) ls
        ⟨0, off, false, acc⟩).code = 0 ∧
      (fs.walkFold (fun loc _ ctx => (0, if fs.child loc then ctx ++ [loc] else ctx)) ls
        ⟨0, off, false, acc⟩).ctx = acc ++ (fs.beforeEnd ls).filter fs.child := by
  induction ls with
  | nil => intro off acc; simp [Fat16.walkFold, Fat16.beforeEnd]
  | cons loc ls ih =>
    intro off acc
    by_cases hend : fs.firstByte loc = FAT16_DIR_ENTRY_END
    · simp [Fat16.walkFold, Fat16.beforeEnd, hend]
    · have hb : fs.beforeEnd (loc :: ls) = loc :: fs.beforeEnd ls := by
        simp [Fat16.beforeEnd, hend]
      simp only [Fat16.walkFold, hend, if_false, ne_eq, not_true_eq_false, hb]
      obtain ⟨hcode, hctx⟩ := ih ((off + FAT16_DIR_ENTRY_SIZE) % 2 ^ 32)
        (if fs.child loc then acc ++ [loc] else acc)
      refine ⟨hcode, hctx.trans ?_⟩
      by_cases hc : fs.child loc
      · simp [hc]
      · simp [hc]

/-- **A full walk** yields the children before the end marker. -/
theorem fat16WalkDir_collect (hf : fs.NoFaults) {d : ℕ} {l : List ℕ} (hd : fs.DirPath d l) :
    fat16WalkDir d collectChildren [] fs =
      some ((0, (fs.beforeEnd (fs.header.dirSlots d l)).filter fs.child), fs) := by
  obtain ⟨hcode, hctx⟩ := walkFold_collect fs (fs.header.dirSlots d l) 0 []
  rw [fat16WalkDir_path hf hd [] (collectChildren_pure _), hcode, hctx, List.nil_append]

/-- The slots from the first end marker on. -/
def Fat16.fromEnd (fs : Fat16) (ls : List DirLoc) : List DirLoc :=
  ls.dropWhile fun loc => decide (fs.firstByte loc ≠ FAT16_DIR_ENTRY_END)

theorem Fat16.beforeEnd_append_fromEnd (fs : Fat16) (ls : List DirLoc) :
    fs.beforeEnd ls ++ fs.fromEnd ls = ls := List.takeWhile_append_dropWhile

/-- A child stands before the end marker, or none stands behind it. -/
def Fat16.EndsClean (fs : Fat16) (ls : List DirLoc) : Prop :=
  (∃ loc ∈ fs.beforeEnd ls, fs.child loc = true) ∨ ∀ loc ∈ fs.fromEnd ls, fs.child loc = false

theorem fat16DirEmpty_iff_walk (hf : fs.NoFaults) {d : ℕ} {l : List ℕ} (hd : fs.DirPath d l) :
    ∃ (empty : Bool) (found : List DirLoc),
      fat16DirEmpty d fs = some (empty, fs) ∧
      fat16WalkDir d collectChildren [] fs = some ((0, found), fs) ∧
      ((empty = true ↔ found = []) ↔ fs.EndsClean (fs.header.dirSlots d l)) := by
  refine ⟨_, _, fat16DirEmpty_path hf hd, fat16WalkDir_collect hf hd, ?_⟩
  generalize fs.header.dirSlots d l = ls
  have hempty : (ls.all fun loc => !fs.child loc) = true ↔
      (∀ loc ∈ fs.beforeEnd ls, fs.child loc = false) ∧
        ∀ loc ∈ fs.fromEnd ls, fs.child loc = false := by
    conv_lhs => rw [← fs.beforeEnd_append_fromEnd ls]
    simp
  have hfound : (fs.beforeEnd ls).filter fs.child = [] ↔
      ∀ loc ∈ fs.beforeEnd ls, fs.child loc = false := by
    simp
  rw [hempty, hfound, Fat16.EndsClean]
  constructor
  · intro h
    by_cases hb : ∀ loc ∈ fs.beforeEnd ls, fs.child loc = false
    · exact .inr (h.mpr hb).2
    · push Not at hb
      obtain ⟨loc, hloc, hc⟩ := hb
      exact .inl ⟨loc, hloc, by simpa using hc⟩
  · rintro (⟨loc, hloc, hc⟩ | hclean)
    · constructor
      · exact fun h => h.1
      · intro h
        rw [h loc hloc] at hc
        cases hc
    · exact ⟨fun h => h.1, fun h => ⟨h, hclean⟩⟩

/-- A directory that holds no entry, with a stale one behind its end marker. -/
def staleOnly : Fat16 :=
  smallVolume (fun j => if j < 4 then 0 else if j < 6 then 0xFF else 0) (fun _ => 0) fun _ =>
    sectorOf [dotEntry ⟨0, 0⟩ 2, dotdotEntry ⟨0, 0⟩ 0 2, Fat16Directory.zero, fileEntry [0x42] 0 0]

theorem staleOnly_dirPath : staleOnly.DirPath 2 [2] :=
  .inr ⟨by decide, 0xFFFF, ⟨rfl, by decide, path_nil.mpr (by decide)⟩, by decide⟩

theorem fat16DirEmpty_iff_walk_staleTail :
    ∃ (empty : Bool) (found : List DirLoc),
      fat16DirEmpty 2 staleTail = some (empty, staleTail) ∧
      fat16WalkDir 2 collectChildren [] staleTail = some ((0, found), staleTail) ∧
      ((empty = true ↔ found = []) ↔ staleTail.EndsClean (staleTail.header.dirSlots 2 [2])) :=
  fat16DirEmpty_iff_walk ⟨rfl, rfl⟩ staleTail_dirPath

/-- The walk lists nothing, yet the test finds the directory not empty. -/
theorem not_fat16DirEmpty_iff_walk_staleOnly :
    fat16DirEmpty 2 staleOnly = some (false, staleOnly) ∧
      fat16WalkDir 2 collectChildren [] staleOnly = some ((0, []), staleOnly) := by
  have hall : ((staleOnly.header.dirSlots 2 [2]).all fun loc => !staleOnly.child loc) = false := by
    decide
  have hbefore : (staleOnly.beforeEnd (staleOnly.header.dirSlots 2 [2])).filter staleOnly.child = [] := by
    decide
  rw [fat16DirEmpty_path ⟨rfl, rfl⟩ staleOnly_dirPath, hall,
    fat16WalkDir_collect ⟨rfl, rfl⟩ staleOnly_dirPath, hbefore]
  exact ⟨rfl, rfl⟩

end LizardOs.Fat
