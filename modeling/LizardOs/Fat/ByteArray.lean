import LizardOs.Fat.OpSpecs
import LizardOs.Fat.WriteThenRead

/-!
# A file is an array of bytes

The bytes of a regular file are the first `size` bytes along its chain.  A write at an offset inside the file replaces
the bytes from there on and leaves every other file alone, and a read returns a piece of the bytes
(`fat16Write_refines`).
-/

namespace LizardOs.Fat

open LizardOs.Lib

variable {fs fs' fs1 : Fat16} {c d e : ℕ} {l l' m : List ℕ} {ino ino' : Inode} {loc x : DirLoc}

/-- The bytes of a file with the chain `l`. -/
def Fat16.content (fs : Fat16) (l : List ℕ) (size : ℕ) : List UInt8 := firstBytes (fs.chainByte l) size

/-- The inode of a regular file of the volume, and the file's chain: it holds the bytes of the file, and belongs to no
other entry. -/
structure FileOf (fs : Fat16) (ino : Inode) (l : List ℕ) : Prop where
  regular : isDir ino.ent = false
  live : fs.Live ino.loc
  cached : Caches ino ino.loc (fs.entryAt ino.loc)
  owns : fs.Owns ino.ent.cluster l
  size_le : ino.size ≤ fs.capacity l
  recorded : ino.ent.fileSizeBytes.toNat = ino.size
  alone : ∀ loc m, fs.Live loc → loc ≠ ino.loc → fs.Owns (fs.entryAt loc).cluster m → m.Disjoint l

/-- Different entries of a well-formed volume have disjoint chains, empty ones included. -/
theorem Fat16.WellFormed.owns_apart (hw : fs.WellFormed) (hloc : fs.Live loc) (hx : fs.Live x) (hne : loc ≠ x)
    (hown : fs.Owns (fs.entryAt loc).cluster l) (hown' : fs.Owns (fs.entryAt x).cluster m) : l.Disjoint m := by
  rcases hown with ⟨-, rfl⟩ | hheads
  · exact List.disjoint_nil_left m
  · rcases hown' with ⟨-, rfl⟩ | hheads'
    · exact List.disjoint_nil_right l
    · exact hw.apart loc x l m hloc hx hne hheads hheads'

theorem Fat16.WellFormed.owns (hw : fs.WellFormed) (hloc : fs.Live loc) : ∃ m, fs.Owns (fs.entryAt loc).cluster m := by
  rcases hw.chains loc hloc with hzero | ⟨m, hheads⟩
  · exact ⟨[], .inl ⟨hzero, rfl⟩⟩
  · exact ⟨m, .inr hheads⟩

/-- The inode that a lookup makes of an entry of a well-formed volume. -/
theorem FileOf.ofEntry (hw : fs.WellFormed) (hlive : fs.Live loc) (hfile : isDir (fs.entryAt loc) = false)
    (hown : fs.Owns (fs.entryAt loc).cluster l) (hsize : (fs.entryAt loc).fileSizeBytes.toNat ≤ fs.capacity l) :
    FileOf fs (Inode.ofEntry (fs.entryAt loc) loc) l where
  regular := hfile
  live := hlive
  cached := ⟨rfl, rfl, rfl, rfl, .inl rfl⟩
  owns := hown
  size_le := hsize
  recorded := rfl
  alone := fun _ _ hlive' hne hown' => hw.owns_apart hlive' hlive hne hown' hown

/-! ### Directories and the clusters of files -/

/-- The chain of a directory is empty, or that of a live entry. -/
theorem Fat16.WellFormed.dirOwner (hw : fs.WellFormed) (hd : fs.DirAt d) :
    ∃ m, fs.Owns d m ∧ (m = [] ∨ ∃ x, fs.Live x ∧ isDir (fs.entryAt x) = true ∧ (fs.entryAt x).cluster = d) := by
  cases hd with
  | root => exact ⟨[], .inl ⟨rfl, rfl⟩, .inl rfl⟩
  | @sub e x he hx hdir =>
    have hlive : fs.Live x := ⟨e, he, hx⟩
    obtain ⟨m, hown⟩ := hw.owns hlive
    exact ⟨m, hown, .inr ⟨x, hlive, hdir, rfl⟩⟩

/-- A live slot is a slot of a directory of the tree. -/
theorem Fat16.Owns.slot_of_holds (hown : fs.Owns d m) (hx : fs.Holds d x) : x ∈ fs.header.dirSlots d m :=
  (mem_of_mem_live ((lists_iff_live hown.dirChain).mp hx.1)).1

/-- No slot of a directory lies in a cluster outside the directory's chain. -/
theorem Fat16.Owns.slots_apart (hs : fs.header.Sound) (hown : fs.Owns d m) (hmin : ∀ b ∈ l, FAT16_CLUSTER_MIN ≤ b)
    (hdisj : m.Disjoint l) : ∀ x ∈ fs.header.dirSlots d m, ∀ b ∈ l, ∀ i < fs.header.spc,
      x.lba ≠ fs.header.clusterToLba b + i :=
  fun _ hx b hb _ hi => dirSlots_disjoint hs (fun _ hy => hown.min_le hy) (hmin b hb) (fun hbm => hdisj hbm hb) hx hi

/-- Live slots lie in no cluster of a file. -/
theorem Fat16.WellFormed.slot_apart (hw : fs.WellFormed) (hs : fs.header.Sound) (hlive : fs.Live loc) (hx : fs.Live x)
    (hfile : isDir (fs.entryAt x) = false) (hown : fs.Owns (fs.entryAt x).cluster l) :
    ∀ b ∈ l, ∀ i < fs.header.spc, loc.lba ≠ fs.header.clusterToLba b + i := by
  obtain ⟨d, hd, hholds⟩ := hlive
  obtain ⟨m, hm, hdir⟩ := hw.dirOwner hd
  have hdisj : m.Disjoint l := by
    rcases hdir with rfl | ⟨y, hy, hisdir, rfl⟩
    · exact List.disjoint_nil_left l
    · refine hw.owns_apart hy hx ?_ hm hown
      rintro rfl
      rw [hfile] at hisdir
      cases hisdir
  exact hm.slots_apart hs (fun _ hb => hown.min_le hb) hdisj loc (hm.slot_of_holds hholds)

theorem Fat16.WellFormed.proper (hw : fs.WellFormed) (hs : fs.header.Sound) (hlive : fs.Live loc) :
    loc.Proper fs.header := by
  obtain ⟨d, hd, hholds⟩ := hlive
  obtain ⟨m, hm, -⟩ := hw.dirOwner hd
  exact hm.proper hs (hm.slot_of_holds hholds)

/-- A chain disjoint from the file's holds no cluster the file may come to use. -/
theorem Fat16.Owns.supply_apart (hown : fs.Owns e m) (hdisj : m.Disjoint l) : m.Disjoint (fs.supply l) := by
  intro b hb hbl
  rcases List.mem_append.mp hbl with hbl | hbl
  · exact hdisj hb hbl
  · exact hown.ne_free hb (Fat16.mem_freeList.mp hbl).2.2

namespace FileOf

theorem file (hf : FileOf fs ino l) : isDir (fs.entryAt ino.loc) = false := by
  rw [← isDir_congr hf.cached.attributes]
  exact hf.regular

/-- The chain of a directory holds no cluster of the file. -/
theorem dir_apart (hf : FileOf fs ino l) (hw : fs.WellFormed) (hd : fs.DirAt d) : ∃ m, fs.Owns d m ∧ m.Disjoint l := by
  obtain ⟨m, hm, hdir⟩ := hw.dirOwner hd
  refine ⟨m, hm, ?_⟩
  rcases hdir with rfl | ⟨x, hx, hisdir, rfl⟩
  · exact List.disjoint_nil_left l
  · refine hf.alone x m hx ?_ hm
    rintro rfl
    rw [hf.file] at hisdir
    cases hisdir

theorem fileOk (hf : FileOf fs ino l) (hw : fs.WellFormed) (hs : fs.header.Sound) : FileOk fs ino l where
  regular := hf.regular
  owns := hf.owns
  size_le := hf.size_le
  recorded := hf.recorded
  proper := hw.proper hs hf.live
  apart := by
    obtain ⟨d, hd, hholds⟩ := hf.live
    obtain ⟨m, hm, hdisj⟩ := hf.dir_apart hw hd
    exact hm.slots_apart hs hf.owns.supply_min (hm.supply_apart hdisj) ino.loc (hm.slot_of_holds hholds)

end FileOf

/-! ### What a write leaves alone -/

/-- The directory holds the same slots when its entries keep their names and kinds. -/
theorem holds_congr (hh : fs'.header = fs.header) (hchain : fs.DirChain d m) (hchain' : fs'.DirChain d m)
    (hent : ∀ x ∈ fs.header.dirSlots d m, (fs'.entryAt x).name = (fs.entryAt x).name ∧
      (fs'.entryAt x).extension = (fs.entryAt x).extension ∧ (fs'.entryAt x).attributes = (fs.entryAt x).attributes)
    (x : DirLoc) : fs'.Holds d x ↔ fs.Holds d x := by
  have hfirst : ∀ y ∈ fs.header.dirSlots d m, fs'.firstByte y = fs.firstByte y := by
    intro y hy
    rw [← Fat16.entryAt_first, ← Fat16.entryAt_first, Fat16Directory.first, (hent y hy).1]
    rfl
  have hvalid : ∀ y ∈ fs.header.dirSlots d m,
      fat16EntryValid (fs'.entryAt y) = fat16EntryValid (fs.entryAt y) := by
    intro y hy
    obtain ⟨h1, h2, h3⟩ := hent y hy
    unfold fat16EntryValid Fat16Directory.first
    rw [h1, h2, h3]
  have hdot : ∀ y ∈ fs.header.dirSlots d m, fat16IsDot (fs'.entryAt y) = fat16IsDot (fs.entryAt y) := by
    intro y hy
    simp only [fat16IsDot, (hent y hy).1]
  have hlive : fs'.live (fs.header.dirSlots d m) = fs.live (fs.header.dirSlots d m) := by
    rw [Fat16.live, Fat16.live, beforeEnd_of_firsts hfirst]
    exact List.filter_congr fun y hy => hvalid y ((List.takeWhile_prefix _).subset hy)
  have hlists : fs'.Lists d x ↔ fs.Lists d x := by
    rw [lists_iff_live hchain', lists_iff_live hchain, hh, hlive]
  constructor
  · rintro ⟨hx, hxdot⟩
    have hx' := hlists.mp hx
    have hmem := (mem_of_mem_live ((lists_iff_live hchain).mp hx')).1
    exact ⟨hx', by rw [← hdot x hmem]; exact hxdot⟩
  · rintro ⟨hx, hxdot⟩
    have hmem := (mem_of_mem_live ((lists_iff_live hchain).mp hx)).1
    exact ⟨hlists.mpr hx, by rw [hdot x hmem]; exact hxdot⟩

/-- `fs'` is `fs` after a change of one file: the table and the data sectors changed at clusters the file may come to
use only, and the slot of the file holds an entry of the same name and kind. -/
structure Rewrote (fs fs' : Fat16) (ino ino' : Inode) (l l' : List ℕ) : Prop where
  header : fs'.header = fs.header
  mounted : fs'.Mounted
  owns : fs'.Owns ino'.ent.cluster l'
  inside : ∀ b ∈ l', b ∈ fs.supply l
  loc : ino'.loc = ino.loc
  entry : fs'.entryAt ino.loc = ino'.ent
  name : ino'.ent.name = ino.ent.name
  extension : ino'.ent.extension = ino.ent.extension
  attributes : ino'.ent.attributes = ino.ent.attributes
  fat : ∀ b ≤ fs.header.lastCluster, b ∉ fs.supply l → fs'.fatAt b = fs.fatAt b
  disk : ∀ lba, fs.header.rootDirLba ≤ lba → lba ≠ ino.loc.lba →
    (∀ b ∈ fs.supply l, ∀ i < fs.header.spc, lba ≠ fs.header.clusterToLba b + i) → fs'.disk lba = fs.disk lba
  slot : ∀ x : DirLoc, x.Proper fs.header → x ≠ ino.loc →
    (∀ b ∈ fs.supply l, ∀ i < fs.header.spc, x.lba ≠ fs.header.clusterToLba b + i) → fs'.entryAt x = fs.entryAt x

theorem Rewrote.of_extends (hext : fs.Extends fs1 c l l') (hsub : ∀ b ∈ l', b ∈ fs.supply l)
    (hproper : ino.loc.Proper fs.header) (hloc : ino'.loc = ino.loc) (hname : ino'.ent.name = ino.ent.name)
    (hextension : ino'.ent.extension = ino.ent.extension) (hattr : ino'.ent.attributes = ino.ent.attributes)
    (hcluster : ino'.ent.cluster = c) : Rewrote fs (fs1.setEntry ino.loc ino'.ent) ino ino' l l' := by
  have hs := hext.mounted.sound
  have hproper' : ino.loc.Proper fs1.header := by
    rw [hext.header]
    exact hproper
  refine ⟨hext.header, Fat16.setEntry_mounted hext.mounted hproper' _, ?_, hsub, hloc,
    Fat16.setEntry_entryAt_self _ _ _, hname, hextension, hattr, ?_, ?_, ?_⟩
  · rw [hcluster]
    right
    exact hext.heads.congr rfl fun b hb => Fat16.setEntry_fatAt hs hproper' _ (hext.heads.inside hb)
  · intro b hb hbl
    rw [Fat16.setEntry_fatAt hs hproper' _ (by rw [hext.header]; exact hb)]
    exact hext.fat b hb fun hbl' => hbl (hsub b hbl')
  · intro lba hroot hne hout
    rw [Fat16.setEntry, Fat16.setSector_disk_ne hne]
    exact hext.disk lba hroot fun b hb => hout b (hsub b hb)
  · intro x hx hne hout
    rw [Fat16.setEntry_entryAt_ne hproper hx hne]
    unfold Fat16.entryAt
    rw [hext.disk x.lba hx.root_le fun b hb => hout b (hsub b hb)]

namespace Rewrote

variable (h : Rewrote fs fs' ino ino' l l') (hf : FileOf fs ino l) (hw : fs.WellFormed) (hs : fs.header.Sound)
include h

/-- A chain disjoint from the file's stays. -/
theorem owns_other (hown : fs.Owns e m) (hdisj : m.Disjoint l) : fs'.Owns e m :=
  hown.congr h.header fun b hb => h.fat b (hown.inside hb) fun hbl => hown.supply_apart hdisj hb hbl

/-- So do its bytes, when the file's slot is in none of its clusters. -/
theorem chainByte_other (hs : fs.header.Sound) (hl : fs.Owns c l) (hown : fs.Owns e m) (hdisj : m.Disjoint l)
    (hslot : ∀ b ∈ m, ∀ i < fs.header.spc, ino.loc.lba ≠ fs.header.clusterToLba b + i) :
    fs'.chainByte m = fs.chainByte m := by
  have hcs := hs.clusterSize_eq
  funext p
  unfold Fat16.chainByte
  rw [h.header]
  cases hy : m[p / fs.header.clusterSize]? with
  | none => rfl
  | some y =>
    have hym := List.mem_of_getElem? hy
    have hr := Nat.mod_lt p hs.clusterSize_pos
    have hsec : p % fs.header.clusterSize / 512 < fs.header.spc := by omega
    have hroot := FatHeader.rootDir_le_clusterToLba (h := fs.header) (hown.min_le hym)
    simp only [Fat16.dataByte]
    rw [h.disk _ (by omega) (hslot y hym _ hsec).symm fun b hb i hi => ?_]
    refine FatHeader.clusterToLba_disjoint (hown.min_le hym) (hl.supply_min b hb) ?_ hsec hi
    rintro rfl
    exact hown.supply_apart hdisj hym hb

/-- The file keeps its name and kind. -/
theorem entry_kind (hf : FileOf fs ino l) : (fs'.entryAt ino.loc).name = (fs.entryAt ino.loc).name ∧
    (fs'.entryAt ino.loc).extension = (fs.entryAt ino.loc).extension ∧
    (fs'.entryAt ino.loc).attributes = (fs.entryAt ino.loc).attributes := by
  rw [h.entry, h.name, h.extension, h.attributes]
  exact ⟨hf.cached.name, hf.cached.extension, hf.cached.attributes⟩

theorem owns_self : fs'.Owns (fs'.entryAt ino.loc).cluster l' := by
  rw [h.entry]
  exact h.owns

include hf hw hs

/-- The directories keep their chains, and all entries but the file's. -/
theorem dir (hd : fs.DirAt d) : ∃ m, fs.Owns d m ∧ fs'.Owns d m ∧
    ∀ x ∈ fs.header.dirSlots d m, x ≠ ino.loc → fs'.entryAt x = fs.entryAt x := by
  obtain ⟨m, hm, hdisj⟩ := hf.dir_apart hw hd
  refine ⟨m, hm, h.owns_other hm hdisj, fun x hx hne => h.slot x (hm.proper hs hx) hne ?_⟩
  exact hm.slots_apart hs hf.owns.supply_min (hm.supply_apart hdisj) x hx

theorem entry_other (hlive : fs.Live x) (hne : x ≠ ino.loc) : fs'.entryAt x = fs.entryAt x := by
  obtain ⟨d, hd, hholds⟩ := hlive
  obtain ⟨m, hm, -, hent⟩ := h.dir hf hw hs hd
  exact hent x (hm.slot_of_holds hholds) hne

/-- The tree stays. -/
theorem live_iff : ∀ x, fs'.Live x ↔ fs.Live x := by
  refine (tree_same (fun d hd => ?_) fun d x hd hx => ?_).2
  · obtain ⟨m, hm, hm', hent⟩ := h.dir hf hw hs hd
    refine holds_congr h.header hm.dirChain hm'.dirChain fun x hx => ?_
    by_cases hxl : x = ino.loc
    · rw [hxl]
      exact h.entry_kind hf
    · rw [hent x hx hxl]
      exact ⟨rfl, rfl, rfl⟩
  · by_cases hxl : x = ino.loc
    · rw [hxl]
      refine ⟨isDir_congr (h.entry_kind hf).2.2, fun hdir => ?_⟩
      rw [hf.file] at hdir
      cases hdir
    · rw [h.entry_other hf hw hs ⟨d, hd, hx⟩ hxl]
      exact ⟨rfl, fun _ => rfl⟩

/-- Another entry keeps its chain, which is disjoint from the file's. -/
theorem owns_at (hlive : fs.Live x) (hne : x ≠ ino.loc) : ∃ m, fs.Owns (fs.entryAt x).cluster m ∧
    fs'.Owns (fs'.entryAt x).cluster m ∧ m.Disjoint l' := by
  obtain ⟨m, hm⟩ := hw.owns hlive
  have hdisj := hf.alone x m hlive hne hm
  refine ⟨m, hm, ?_, fun b hb hbl => hm.supply_apart hdisj hb (h.inside b hbl)⟩
  rw [h.entry_other hf hw hs hlive hne]
  exact h.owns_other hm hdisj

theorem apart {m' : List ℕ} (hlive : fs'.Live loc) (hlive' : fs'.Live x) (hne : loc ≠ x)
    (hown : fs'.Owns (fs'.entryAt loc).cluster m) (hown' : fs'.Owns (fs'.entryAt x).cluster m') : m.Disjoint m' := by
  have htree := h.live_iff hf hw hs
  by_cases hl : loc = ino.loc
  · subst hl
    obtain ⟨k, -, hk, hdisj⟩ := h.owns_at hf hw hs ((htree x).mp hlive') (Ne.symm hne)
    rw [hown.unique h.owns_self, hown'.unique hk]
    exact List.disjoint_symm hdisj
  · obtain ⟨k, hk, hk', hdisj⟩ := h.owns_at hf hw hs ((htree loc).mp hlive) hl
    obtain rfl := hown.unique hk'
    by_cases hx : x = ino.loc
    · subst hx
      rw [hown'.unique h.owns_self]
      exact hdisj
    · obtain ⟨k', hk₂, hk₂', -⟩ := h.owns_at hf hw hs ((htree x).mp hlive') hx
      obtain rfl := hown'.unique hk₂'
      exact hw.owns_apart ((htree loc).mp hlive) ((htree x).mp hlive') hne hk hk₂

/-- The volume is well-formed again. -/
theorem wellFormed : fs'.WellFormed where
  chains := by
    intro x hlive
    have hown : ∃ m, fs'.Owns (fs'.entryAt x).cluster m := by
      by_cases hx : x = ino.loc
      · rw [hx]
        exact ⟨l', h.owns_self⟩
      · obtain ⟨m, -, hm, -⟩ := h.owns_at hf hw hs ((h.live_iff hf hw hs x).mp hlive) hx
        exact ⟨m, hm⟩
    obtain ⟨m, ⟨hzero, -⟩ | hheads⟩ := hown
    · exact .inl hzero
    · exact .inr ⟨m, hheads⟩
  apart := fun _ _ _ _ hlive hlive' hne hheads hheads' => h.apart hf hw hs hlive hlive' hne (.inr hheads) (.inr hheads')
  used := fun _ _ _ hheads _ hc => hheads.ne_free hc

/-- The inode is that of the file again. -/
theorem fileOf (hsize : ino'.size ≤ fs.capacity l') (hrecorded : ino'.ent.fileSizeBytes.toNat = ino'.size) :
    FileOf fs' ino' l' where
  regular := by
    rw [isDir_congr h.attributes]
    exact hf.regular
  live := by
    rw [h.loc]
    exact (h.live_iff hf hw hs _).mpr hf.live
  cached := by
    rw [h.loc, h.entry]
    exact ⟨h.loc, rfl, rfl, rfl, .inl rfl⟩
  owns := h.owns
  size_le := by
    rw [capacity_congr h.header]
    exact hsize
  recorded := hrecorded
  alone := by
    intro x m hlive hne hm
    rw [h.loc] at hne
    refine h.apart hf hw hs hlive ?_ hne hm h.owns_self
    exact (h.live_iff hf hw hs _).mpr hf.live

/-- The other files keep their bytes. -/
theorem content_other (hlive : fs.Live x) (hne : x ≠ ino.loc) (hfile : isDir (fs.entryAt x) = false)
    (hown : fs.Owns (fs.entryAt x).cluster m) : fs'.Owns (fs.entryAt x).cluster m ∧
      ∀ size, fs'.content m size = fs.content m size := by
  have hdisj := hf.alone x m hlive hne hown
  refine ⟨h.owns_other hown hdisj, fun size => ?_⟩
  rw [Fat16.content, Fat16.content,
    h.chainByte_other hs hf.owns hown hdisj (hw.slot_apart hs hf.live hlive hfile hown)]

end Rewrote

/-! ### Reads and writes of the bytes -/

/-- **A read** returns the bytes from the offset on, as many as were asked for or as the file holds. -/
theorem FileOf.read (hf : FileOf fs ino l) (hm : fs.Mounted) (buf : Buf) {count offset : ℕ} (hcount : count < 2 ^ 32)
    (hoff : offset < 2 ^ 63) : ∃ (k : ℕ) (buf' : Buf), fat16Read ino buf count offset fs = some (((k : ℤ), buf'), fs) ∧
      firstBytes buf' k = ((fs.content l ino.size).drop offset).take count := by
  have hlt := ino.ent.fileSizeBytes.toNat_lt
  rw [hf.recorded] at hlt
  have hwant : readWant ino.size count offset = min count (ino.size - offset) := by
    unfold readWant
    split
    · omega
    · rw [if_pos (by omega)]
  obtain ⟨r, buf', fs', k, hrun, hro, hbuf, -, -, hq⟩ := fat16Read_run hm.sound hm.cache hf.owns hf.size_le hlt buf hoff
    (show count < 2 ^ 63 by omega) (by omega)
  obtain ⟨rfl, hk⟩ := hq hm.noFaults.io
  have hsize := hf.size_le
  refine ⟨k, buf', ?_, ?_⟩
  · rw [hrun, hro.quiet hm.noFaults.io]
  · rw [Fat16.content, firstBytes_drop_take, show min count (ino.size - offset) = k by omega]
    exact firstBytes_congr fun j hj => by rw [hbuf, splice_zero hj]

/-- The bytes of the file after a write inside it. -/
theorem Wrote.content {pos n : ℕ} {src : Buf} (h : Wrote fs fs' ino ino' l l' pos n src) (hs : fs.header.Sound)
    (hfits : ino.size ≤ fs.capacity l) (hpos : pos ≤ ino.size) (hsize : ino'.size = max ino.size (pos + n)) :
    fs'.content l' ino'.size =
      (fs.content l ino.size).take pos ++ firstBytes src n ++ (fs.content l ino.size).drop (pos + n) := by
  have hle := h.capacity_le
  have hcov := h.covered
  rw [Fat16.content, Fat16.content, hsize, ← firstBytes_splice _ _ _ hpos]
  apply firstBytes_congr
  intro j hj
  rw [h.bytes j (by omega)]
  by_cases hin : pos ≤ j ∧ j < pos + n
  · obtain ⟨i, rfl⟩ : ∃ i, j = pos + i := ⟨j - pos, by omega⟩
    rw [splice_inside (by omega), splice_inside (by omega)]
  · rw [splice_outside (by omega), splice_outside (by omega), Fat16.supply, chainByte_prefix hs _ _ (by omega)]

/-- The file and the volume after a write of `n` of `count` bytes at an offset: the file's bytes are those of an array
that was overwritten, and every other entry and file is what it was. -/
structure Overwritten (fs fs' : Fat16) (ino ino' : Inode) (l l' : List ℕ) (buf : Buf) (count offset n : ℕ) : Prop where
  mounted : fs'.Mounted
  wellFormed : fs'.WellFormed
  file : FileOf fs' ino' l'
  content : fs'.content l' ino'.size =
    (fs.content l ino.size).take offset ++ firstBytes buf n ++ (fs.content l ino.size).drop (offset + n)
  size : ino'.size = max ino.size (offset + n)
  all : n = count ∨ n < count ∧ fs'.freeList = []
  loc : ino'.loc = ino.loc
  entry_size : (fs'.entryAt ino.loc).fileSizeBytes.toNat = ino'.size
  entry_cluster : (fs'.entryAt ino.loc).cluster = ino'.ent.cluster
  others : ∀ x, fs.Live x → x ≠ ino.loc → fs'.Live x ∧ fs'.entryAt x = fs.entryAt x ∧
    (isDir (fs.entryAt x) = false → ∀ m, fs.Owns (fs.entryAt x).cluster m →
      fs'.Owns (fs.entryAt x).cluster m ∧ ∀ size, fs'.content m size = fs.content m size)
  reads : ∀ (buf₀ : Buf) (c off : ℕ), c < 2 ^ 32 → off < 2 ^ 63 → ∃ (k : ℕ) (buf₁ : Buf),
    fat16Read ino' buf₀ c off fs' = some (((k : ℤ), buf₁), fs') ∧
      firstBytes buf₁ k = ((fs'.content l' ino'.size).drop off).take c

theorem Overwritten.of_writes {buf : Buf} {count offset n : ℕ} {now : DosStamp} (hm : fs.Mounted)
    (hw : fs.WellFormed) (hf : FileOf fs ino l) (hwrites : fs.Writes fs1 c l l' offset n buf)
    (hcov : offset + n ≤ fs.capacity l') (hoff : offset ≤ ino.size) (hlt : offset + n < 2 ^ 32)
    (hn : n = min count (fs.capacity (fs.supply l) - offset)) :
    Overwritten fs (fs1.setEntry ino.loc ((ino.withCluster c).written now offset n).ent) ino
      ((ino.withCluster c).written now offset n) l l' buf count offset n := by
  have hs := hm.sound
  have hfile := hf.fileOk hw hs
  have hsize0 := ino.ent.fileSizeBytes.toNat_lt
  rw [hf.recorded] at hsize0
  have hwrote := Wrote.of_writes hfile hwrites hcov now offset n
  have hcluster := ino.withCluster_cluster hwrites.heads.head_lt
  obtain ⟨h1, h2, h3, h4, h5⟩ := Inv.written_keeps now (ino.withCluster c) offset n
  have hsub : ∀ b ∈ l', b ∈ fs.supply l := by
    intro b hb
    rw [Fat16.supply, ← hwrites.supply]
    exact List.mem_append_left _ hb
  have hrew : Rewrote fs (fs1.setEntry ino.loc ((ino.withCluster c).written now offset n).ent) ino
      ((ino.withCluster c).written now offset n) l l' :=
    .of_extends hwrites.toExtends hsub hfile.proper h1 h2 h3 h4 (h5.trans hcluster)
  have hfree : (fs1.setEntry ino.loc ((ino.withCluster c).written now offset n).ent).freeList = fs1.freeList := by
    refine Fat16.freeList_congr rfl fun b hb => Fat16.setEntry_fatAt hwrites.mounted.sound ?_ _ hb
    rw [hwrites.header]
    exact hfile.proper
  have hsize : ((ino.withCluster c).written now offset n).size = max ino.size (offset + n) := Inode.written_size _ _ _ _
  have hle := hwrote.capacity_le
  have hfits := hf.size_le
  have hrecorded := hwrote.recorded
  rw [Nat.mod_eq_of_lt (by omega)] at hrecorded
  have hfileOf := hrew.fileOf hf hw hs (by omega) hrecorded
  refine ⟨hrew.mounted, hrew.wellFormed hf hw hs, hfileOf, hwrote.content hs hfits hoff hsize, hsize, ?_, h1, ?_, ?_, ?_,
    fun buf₀ k off hk hoff => hfileOf.read hrew.mounted buf₀ hk hoff⟩
  · -- fewer bytes than asked for: the file has taken the last free cluster
    by_cases hall : n = count
    · exact .inl hall
    · right
      refine ⟨by omega, ?_⟩
      have hcap : fs.capacity (fs.supply l) = fs.capacity l' + fs.capacity fs1.freeList := by
        rw [Fat16.supply, ← hwrites.supply, capacity_append]
      rw [hfree]
      have hzero : fs.capacity fs1.freeList = 0 := by omega
      rcases Nat.mul_eq_zero.mp hzero with hnil | hcs
      · exact List.length_eq_zero_iff.mp hnil
      · have := hs.clusterSize_pos
        omega
  · rw [hwrote.entry]
    exact hrecorded
  · rw [hwrote.entry]
  · intro x hlive hne
    refine ⟨(hrew.live_iff hf hw hs x).mpr hlive, hrew.entry_other hf hw hs hlive hne, fun hfile m hown => ?_⟩
    exact hrew.content_other hf hw hs hlive hne hfile hown

/-- **A file is an array of bytes.**  On a well-formed volume, and whatever the size of its clusters, a write at an offset
inside a regular file either stores nothing, or overwrites the bytes of the file from the offset on, all of them unless
no free cluster is left; the entry on disk follows, everything else stays, and reads return the new bytes. -/
theorem fat16Write_refines (hm : fs.Mounted) (hw : fs.WellFormed) (hf : FileOf fs ino l) (now : DosStamp) (buf : Buf)
    {count offset : ℕ} (hoff : offset ≤ ino.size) (hcount : 0 < count) (hsum : offset + count < 2 ^ 32) :
    ∃ r ino' fs', fat16Write now ino buf count offset fs = some ((r, ino'), fs') ∧
      ∀ n : ℕ, 0 < n → r = n → ∃ l', Overwritten fs fs' ino ino' l l' buf count offset n := by
  have hdir := hf.regular
  have hmod : offset % 2 ^ 32 = offset := Nat.mod_eq_of_lt (by omega)
  have hfailed : ∀ {ino' fs'}, fat16Write now ino buf count offset fs = some ((-1, ino'), fs') →
      ∃ r ino' fs', fat16Write now ino buf count offset fs = some ((r, ino'), fs') ∧
        ∀ n : ℕ, 0 < n → r = n → ∃ l', Overwritten fs fs' ino ino' l l' buf count offset n :=
    fun hrun => ⟨-1, _, _, hrun, fun n _ hn => by omega⟩
  cases hro : fs.readOnly with
  | true => exact hfailed (fat16Write_readOnly hro)
  | false =>
    -- the positioning and the data loop, once the file has a first cluster
    have hrest : ∀ {c fs1 l1}, writeFirst ino fs = some (some (ino.withCluster c), fs1) → fs.Grows fs1 c l l1 →
        ∃ r ino' fs', fat16Write now ino buf count offset fs = some ((r, ino'), fs') ∧
          ∀ n : ℕ, 0 < n → r = n → ∃ l', Overwritten fs fs' ino ino' l l' buf count offset n := by
      intro c fs1 l1 hfirst hgrow1
      have hcluster := ino.withCluster_cluster hgrow1.heads.head_lt
      obtain ⟨r, fs2, l2, hseek, hgrow2, hcase⟩ := writeSeek_place hgrow1.mounted hgrow1.heads (offset % 2 ^ 32)
      rw [hgrow1.header] at hcase
      rw [hgrow1.header, ← hcluster] at hseek
      have hcount0 : count ≠ 0 := by omega
      rcases hcase with rfl | hr
      · exact hfailed (fat16Write_seek_failed hdir hro hcount0 hfirst hseek)
      · have hstored : fs.stored l count offset = min count (fs.capacity (fs.supply l) - offset) := by
          rw [Fat16.stored, hmod]
        obtain ⟨fs', l', -, hwrites, hcov, hrun⟩ := fat16Write_data hm hdir hro hf.owns.supply_min now buf hcount0 hfirst
          hseek (hgrow1.trans hgrow2) hr (by omega)
        rw [hmod] at hwrites hcov
        generalize fs.stored l count offset = n at *
        refine ⟨n, _, _, hrun, fun k _ hk => ?_⟩
        obtain rfl : n = k := by exact_mod_cast hk
        exact ⟨l', .of_writes hm hw hf hwrites hcov hoff (by omega) hstored⟩
    rcases writeFirst_ok hm hf.owns with ⟨-, hl, hfree, hfirst⟩ | ⟨-, rfl, a, hfirst, hgrow⟩ | ⟨hheads, hfirst⟩
    · exact hfailed (fat16Write_no_first hdir hro (by omega) hfirst)
    · exact hrest hfirst hgrow
    · exact hrest hfirst (.refl hm hheads)

/-! ### A volume with one file -/

theorem fiveBytes_children : (fiveBytes 0x53).children ((fiveBytes 0x53).header.dirSlots 0 []) = [⟨2, 0⟩] := by decide

theorem fiveBytes_dirAt {d : ℕ} (h : (fiveBytes 0x53).DirAt d) : d = 0 := by
  induction h with
  | root => rfl
  | @sub e x _ hx hdir ih =>
    rw [ih, holds_iff_children (.inl ⟨rfl, rfl⟩), fiveBytes_children] at hx
    rw [List.mem_singleton.mp hx, show isDir ((fiveBytes 0x53).entryAt ⟨2, 0⟩) = false by decide] at hdir
    cases hdir

theorem fiveBytes_live_iff {x : DirLoc} : (fiveBytes 0x53).Live x ↔ x = ⟨2, 0⟩ := by
  constructor
  · rintro ⟨d, hd, hx⟩
    rw [fiveBytes_dirAt hd, holds_iff_children (.inl ⟨rfl, rfl⟩), fiveBytes_children] at hx
    exact List.mem_singleton.mp hx
  · rintro rfl
    refine ⟨0, .root, ?_⟩
    rw [holds_iff_children (.inl ⟨rfl, rfl⟩), fiveBytes_children]
    exact List.mem_singleton_self _

theorem fiveBytes_entry : (fiveBytes 0x53).entryAt ⟨2, 0⟩ = fiveInode.ent := by decide

theorem fiveBytes_wellFormed : (fiveBytes 0x53).WellFormed where
  chains := by
    intro x hx
    rw [fiveBytes_live_iff.mp hx, fiveBytes_entry]
    rcases fiveBytes_owns 0x53 with ⟨hzero, -⟩ | hheads
    · exact .inl hzero
    · exact .inr ⟨[2], hheads⟩
  apart := fun _ _ _ _ hx hy hne => absurd ((fiveBytes_live_iff.mp hx).trans (fiveBytes_live_iff.mp hy).symm) hne
  used := fun _ _ _ hheads _ hc => hheads.ne_free hc

theorem fiveBytes_fileOf : FileOf (fiveBytes 0x53) fiveInode [2] := by
  have hino : Inode.ofEntry ((fiveBytes 0x53).entryAt ⟨2, 0⟩) ⟨2, 0⟩ = fiveInode := by rw [fiveBytes_entry]; rfl
  rw [← hino]
  refine FileOf.ofEntry fiveBytes_wellFormed (fiveBytes_live_iff.mpr rfl) ?_ ?_ ?_
  · rw [fiveBytes_entry]
    rfl
  · rw [fiveBytes_entry]
    exact fiveBytes_owns 0x53
  · rw [fiveBytes_entry]
    exact (fiveBytes_ok 0x53).size_le

/-- Six bytes written from the fourth of five on. -/
theorem fat16Write_refines_fiveBytes : ∃ ino' fs' l',
    fat16Write ⟨0, 0⟩ fiveInode (fun _ => 0x42) 6 3 (fiveBytes 0x53) = some ((6, ino'), fs') ∧
      Overwritten (fiveBytes 0x53) fs' fiveInode ino' [2] l' (fun _ => 0x42) 6 3 6 := by
  obtain ⟨r, ino', fs', hrun, hall⟩ := fat16Write_refines (fiveBytes_mounted _) fiveBytes_wellFormed fiveBytes_fileOf
    ⟨0, 0⟩ (fun _ => 0x42) (show 3 ≤ fiveInode.size by decide) (show 0 < 6 by decide) (by decide)
  have hr : r = 6 := by
    rcases fat16Write_spec (fiveBytes_mounted 0x53) (by decide) fiveBytes_fileOf.regular rfl (fiveBytes_owns 0x53) ⟨0, 0⟩
      (fun _ => 0x42) (show 6 ≠ 0 by decide) 3 with ⟨hl, -, -⟩ | ⟨hcap, -, -, -⟩ | ⟨-, -, -, hrun'⟩
    · cases hl
    · exact absurd hcap (by decide)
    · rw [hrun] at hrun'
      obtain ⟨⟨rfl, -⟩, -⟩ := by simpa only [Option.some.injEq, Prod.mk.injEq] using hrun'
      decide
  subst hr
  obtain ⟨l', h⟩ := hall 6 (by decide) rfl
  exact ⟨ino', fs', l', hrun, h⟩

end LizardOs.Fat
