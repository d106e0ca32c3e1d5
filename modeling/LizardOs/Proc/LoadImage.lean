import LizardOs.Proc.StartupStack

/-!
# The image that `load_elf` builds

A file that `vfs_read` serves in pieces of any length is read whole all the same.  Page by page a segment is mapped to a
fresh frame, cleared, and filled with the bytes that the file has for it; a page keeps these bytes when the later pages
and the stack are filled.  So each segment ends as the file describes it: the bytes of the file, and zeros up to the
end of the last page.
-/

namespace LizardOs.Proc

open LizardOs.Lib LizardOs.Mm LizardOs.Mm.PageMem

/-! ### Files -/

/-- `vfs_read` gives bytes of the file, one at least where the file has any, in pieces of any length. -/
def ImageFile.Serves (f : ImageFile) (data : List UInt8) : Prop :=
  ∀ off n, 0 < n → off < data.length → ∃ m, 0 < m ∧ f.read off n = (data.drop off).take m

section

variable {f : ImageFile} {data : List UInt8}

theorem readLoop_spec {fuel : ℕ} (hserves : f.Serves data) (hsize : data.length < 2 ^ 64) (off len : ℕ)
    (hfuel : len ≤ fuel) (hfits : off + len ≤ data.length) :
    f.readLoop fuel off len = (true, (data.drop off).take len) := by
  induction fuel generalizing off len with
  | zero =>
    obtain rfl := Nat.le_zero.mp hfuel
    rfl
  | succ fuel ih =>
    rw [ImageFile.readLoop]
    by_cases hzero : len = 0
    · rw [if_pos hzero, hzero, List.take_zero]
    · obtain ⟨m, hm, hread⟩ := hserves off len (Nat.pos_of_ne_zero hzero) (by omega)
      have hgot : (f.read off len).length = min m (data.length - off) := by
        rw [hread, List.length_take, List.length_drop]
      have hshort := f.short off len
      have hne : f.read off len ≠ [] := List.length_pos_iff.mp (by omega)
      have hpiece : f.read off len = (data.drop off).take (f.read off len).length :=
        List.prefix_iff_eq_take.mp (hread ▸ List.take_prefix m _)
      rw [if_neg hzero, if_neg hne, Nat.mod_eq_of_lt (by omega), ih _ _ (by omega) (by omega)]
      refine Prod.ext rfl ?_
      show f.read off len ++ ((data.drop (off + (f.read off len).length)).take (len - (f.read off len).length)) = _
      rw [← List.drop_drop]
      nth_rewrite 1 [hpiece]
      rw [← List.take_add, Nat.add_sub_cancel' hshort]

theorem readAt_spec (hserves : f.Serves data) (hsize : data.length < 2 ^ 64) {off len : ℕ}
    (hfits : off + len ≤ data.length) : f.readAt off len = (true, (data.drop off).take len) :=
  readLoop_spec hserves hsize off len le_rfl hfits

end

/-! ### What a file describes -/

/-- `e_entry`. -/
def entryOf (data : List UInt8) : ℕ := field data 24 8

/-- The program headers. -/
def phdrsOf (data : List UInt8) : List Phdr :=
  (List.range (field data 56 2)).map fun i => Phdr.ofBytes (data.drop (field data 32 8 + i * PHDR_SIZE))

/-- The segment is loaded. -/
def Phdr.Loaded (ph : Phdr) : Prop := ph.p_type = PT_LOAD ∧ ph.p_memsz ≠ 0

/-- The end of the last page of `n` bytes. -/
def pageEnd (n : ℕ) : ℕ := (n + (PAGE_SIZE - 1)) / PAGE_SIZE * PAGE_SIZE

/-- The address is in a page of the segment. -/
def Phdr.Covers (ph : Phdr) (v : ℕ) : Prop := ph.p_vaddr ≤ v ∧ v < ph.p_vaddr + pageEnd ph.p_memsz

/-- The byte that a segment has `i` bytes behind its beginning. -/
def Phdr.byteAt (ph : Phdr) (data : List UInt8) (i : ℕ) : UInt8 :=
  if i < ph.p_filesz then data.getD (ph.p_offset + i) 0 else 0

/-- A segment that is page aligned and below the stack, with its bytes in the file. -/
structure Phdr.Proper (ph : Phdr) (data : List UInt8) : Prop where
  aligned : ph.p_vaddr % PAGE_SIZE = 0
  sizes : ph.p_filesz ≤ ph.p_memsz
  below : ph.p_vaddr + ph.p_memsz ≤ USER_STACK_BASE
  inFile : ph.p_offset + ph.p_filesz ≤ data.length

/-- An executable whose segments are proper and share no page. -/
structure ExecImage (data : List UInt8) : Prop where
  size : data.length < 2 ^ 64
  header : EHDR_SIZE ≤ data.length
  magic : data.take 4 = [0x7f, 0x45, 0x4c, 0x46]
  exec : field data 16 2 = ET_EXEC
  count : field data 56 2 ≤ MAX_PHDRS
  table : ∀ i < field data 56 2, field data 32 8 + (i + 1) * PHDR_SIZE ≤ data.length
  proper : ∀ ph ∈ phdrsOf data, ph.Loaded → ph.Proper data
  disjoint : (phdrsOf data).Pairwise fun p q => p.Loaded → q.Loaded → ∀ v, ¬(p.Covers v ∧ q.Covers v)

section

variable {f : ImageFile} {data : List UInt8} {ph : Phdr} {s s' : PageMem} {root : ℕ} {pages : List ℕ} {ok : Bool}

theorem field_take {off n m : ℕ} (bs : List UInt8) (h : off + n ≤ m) : field (bs.take m) off n = field bs off n := by
  rw [field, field, List.drop_take, List.take_take, Nat.min_eq_left (by omega)]

theorem phdr_take {m : ℕ} (bs : List UInt8) (h : PHDR_SIZE ≤ m) : Phdr.ofBytes (bs.take m) = Phdr.ofBytes bs := by
  rw [PHDR_SIZE] at h
  simp only [Phdr.ofBytes]
  rw [field_take bs (by omega), field_take bs (by omega), field_take bs (by omega), field_take bs (by omega),
    field_take bs (by omega)]

/-- `load_elf` finds the entry point and the program headers of an executable. -/
theorem programHeaders_spec (hserves : f.Serves data) (hdata : ExecImage data) :
    programHeaders f = some (entryOf data, phdrsOf data) := by
  have hheader : f.readAt 0 EHDR_SIZE = (true, data.take EHDR_SIZE) := by
    rw [readAt_spec hserves hdata.size (by rw [Nat.zero_add]; exact hdata.header), List.drop_zero]
  have hmagic : (data.take EHDR_SIZE).take 4 = data.take 4 := by
    rw [List.take_take]
    rfl
  have hexec : field (data.take EHDR_SIZE) 16 2 = field data 16 2 := field_take data (by decide)
  have hcount : field (data.take EHDR_SIZE) 56 2 = field data 56 2 := field_take data (by decide)
  have hoff : field (data.take EHDR_SIZE) 32 8 = field data 32 8 := field_take data (by decide)
  have hentry : field (data.take EHDR_SIZE) 24 8 = field data 24 8 := field_take data (by decide)
  have htable : f.readAt (field data 32 8) (field data 56 2 * PHDR_SIZE) =
      (true, (data.drop (field data 32 8)).take (field data 56 2 * PHDR_SIZE)) := by
    rcases Nat.eq_zero_or_pos (field data 56 2) with hzero | hpos
    · rw [hzero, Nat.zero_mul, List.take_zero]
      rfl
    · have hlast := hdata.table (field data 56 2 - 1) (by omega)
      rw [Nat.sub_add_cancel hpos] at hlast
      exact readAt_spec hserves hdata.size hlast
  rw [programHeaders]
  simp only [hheader, hmagic, hexec, hcount, hoff, hentry, htable]
  rw [if_neg (by decide), if_neg (not_not.mpr hdata.magic), if_neg (not_not.mpr hdata.exec),
    if_neg (Nat.not_lt.mpr hdata.count), if_neg (by decide)]
  refine congrArg some (Prod.ext rfl (List.map_congr_left fun i hi => ?_))
  have hi := List.mem_range.mp hi
  have hroom : PHDR_SIZE ≤ field data 56 2 * PHDR_SIZE - i * PHDR_SIZE := by
    rw [← Nat.sub_mul]
    exact Nat.le_mul_of_pos_left _ (by omega)
  rw [List.drop_take, phdr_take _ hroom, List.drop_drop]

/-! ### Segments -/

/-- The bytes that a page gets are those of the segment. -/
theorem content_spec (hserves : f.Serves data) (hsize : data.length < 2 ^ 64) (hph : ph.Proper data) (j : ℕ) :
    (ph.content f j).1 = true ∧ ∀ k < PAGE_SIZE, (ph.content f j).2.getD k 0 = ph.byteAt data (j + k) := by
  have hfile := hph.inFile
  rw [Phdr.content]
  by_cases hin : j < ph.p_filesz
  · have hfill : ph.fill j = min (ph.p_filesz - j) PAGE_SIZE := if_pos hin
    have hpos : ph.fill j ≠ 0 := by
      rw [hfill, PAGE_SIZE]
      omega
    have hread : f.readAt (ph.p_offset + j) (ph.fill j) = (true, (data.drop (ph.p_offset + j)).take (ph.fill j)) :=
      readAt_spec hserves hsize (by omega)
    rw [if_neg hpos, Nat.mod_eq_of_lt (by omega), hread]
    refine ⟨rfl, fun k hk => ?_⟩
    show ((data.drop (ph.p_offset + j)).take (ph.fill j)).getD k 0 = _
    rw [Phdr.byteAt]
    by_cases hbyte : j + k < ph.p_filesz
    · rw [if_pos hbyte, List.getD_eq_getElem?_getD, List.getElem?_take_of_lt (by omega), List.getElem?_drop,
        List.getD_eq_getElem?_getD, Nat.add_assoc]
    · rw [if_neg hbyte, List.getD_eq_default]
      rw [List.length_take]
      omega
  · have hfill : ph.fill j = 0 := if_neg hin
    rw [if_pos hfill]
    refine ⟨rfl, fun k _ => ?_⟩
    rw [Phdr.byteAt, if_neg (by omega)]
    rfl

/-- The pages of a segment from round `r` on. -/
theorem loadPages_image (hserves : f.Serves data) (hsize : data.length < 2 ^ 64) (hph : ph.Proper data) {fuel r : ℕ}
    (hs : UserSpace s root) (hr : loadPages f root ph fuel (r * PAGE_SIZE) s = some (ok, pages, s')) :
    ok = true ∧ UserSpace s' root ∧
      (∀ i, r * PAGE_SIZE ≤ i → i < pageEnd ph.p_memsz →
        userByte s' root (ph.p_vaddr + i) = some (ph.byteAt data i)) ∧
      ∀ w < 2 ^ 47, ¬(ph.p_vaddr + r * PAGE_SIZE ≤ w ∧ w < ph.p_vaddr + pageEnd ph.p_memsz) →
        userByte s' root w = userByte s root w := by
  have hbelow := hph.below
  have haligned := hph.aligned
  have hbase : USER_STACK_BASE = 0x700000000000 := rfl
  induction fuel generalizing r s pages with
  | zero => cases hr
  | succ fuel ih =>
    have hend : r * PAGE_SIZE < ph.p_memsz ↔ r * PAGE_SIZE < pageEnd ph.p_memsz := by
      rw [pageEnd, PAGE_SIZE]
      omega
    obtain ⟨hout, rfl, -, rfl⟩ | ⟨hin, frame, s₁, halloc, hround⟩ := loadPages_round hr
    · rw [hend] at hout
      exact ⟨rfl, hs, fun i hlo hhi => absurd hhi (by omega), fun _ _ _ => rfl⟩
    · obtain ⟨hread, hbytes⟩ := content_spec hserves hsize hph (r * PAGE_SIZE)
      have hv : ph.p_vaddr + r * PAGE_SIZE < 2 ^ 47 := by omega
      rw [Nat.mod_eq_of_lt (by omega)] at halloc
      obtain ⟨hshort, -⟩ | ⟨-, more, -, hrec⟩ := hround
      · cases hshort.symm.trans hread
      · have hpos : PAGE_SIZE = 4096 := rfl
        have hsucc : (r + 1) * PAGE_SIZE = r * PAGE_SIZE + PAGE_SIZE := Nat.succ_mul r PAGE_SIZE
        have hnext : (r * PAGE_SIZE + PAGE_SIZE) % 2 ^ 64 = (r + 1) * PAGE_SIZE := by
          rw [hsucc]
          exact Nat.mod_eq_of_lt (by omega)
        rw [hnext] at hrec
        obtain ⟨hspace, hpage, hother⟩ := hs.page (tableIndex_user hv) (content_length f ph _) halloc
        obtain ⟨rfl, hspace', hlater, hrest⟩ := ih hspace hrec
        rw [hsucc] at hlater hrest
        have hstart : (ph.p_vaddr + r * PAGE_SIZE) % PAGE_SIZE = 0 := by
          rw [Nat.add_mul_mod_self_right]
          exact haligned
        have hcell : ∀ w < 2 ^ 47, (tablePath w, tableIndex w 12) = (tablePath (ph.p_vaddr + r * PAGE_SIZE),
            tableIndex (ph.p_vaddr + r * PAGE_SIZE) 12) ↔
            ph.p_vaddr + r * PAGE_SIZE ≤ w ∧ w < ph.p_vaddr + r * PAGE_SIZE + PAGE_SIZE := by
          intro w hw
          rw [cell_eq_iff hv hw]
          generalize ph.p_vaddr + r * PAGE_SIZE = v at hstart
          rw [hpos] at hstart ⊢
          omega
        refine ⟨rfl, hspace', fun i hlo hhi => ?_, fun w hw hout => ?_⟩
        · by_cases hlast : r * PAGE_SIZE + PAGE_SIZE ≤ i
          · exact hlater i hlast hhi
          · -- the bytes of this page, which the later rounds leave alone
            have hplace : (ph.p_vaddr + i) % PAGE_SIZE = i - r * PAGE_SIZE := by
              have hsplit : ph.p_vaddr + i = ph.p_vaddr + r * PAGE_SIZE + (i - r * PAGE_SIZE) := by omega
              rw [hsplit, Nat.add_mod, hstart, Nat.zero_add, Nat.mod_mod, Nat.mod_eq_of_lt (by omega)]
            rw [hrest _ (by omega) (by omega), hpage _ ((hcell _ (by omega)).mpr (by omega)), hplace,
              hbytes _ (by omega), Nat.add_sub_cancel' hlo]
        · have hroom : r * PAGE_SIZE + PAGE_SIZE ≤ pageEnd ph.p_memsz := by
            rw [pageEnd, hpos]
            rw [hpos] at hin
            omega
          rw [hrest w hw (by omega), hother w (tableIndex_user hw) (mt (hcell w hw).mp (by omega))]

/-- The pages of a proper segment are below the stack. -/
theorem Phdr.Proper.pages_below (h : ph.Proper data) : ph.p_vaddr + pageEnd ph.p_memsz ≤ USER_STACK_BASE := by
  have haligned := h.aligned
  have hbelow := h.below
  rw [USER_STACK_BASE] at *
  rw [pageEnd, PAGE_SIZE] at *
  omega

/-- **The segments of an image**: each of them is as the file describes it, and the other pages are as they were. -/
theorem loadSegments_image (hserves : f.Serves data) (hsize : data.length < 2 ^ 64) {phdrs : List Phdr}
    (hproper : ∀ ph ∈ phdrs, ph.Loaded → ph.Proper data)
    (hdisjoint : phdrs.Pairwise fun p q => p.Loaded → q.Loaded → ∀ v, ¬(p.Covers v ∧ q.Covers v))
    (hs : UserSpace s root) (hr : loadSegments f root phdrs s = some (ok, pages, s')) :
    ok = true ∧ UserSpace s' root ∧
      (∀ ph ∈ phdrs, ph.Loaded → ∀ i < pageEnd ph.p_memsz,
        userByte s' root (ph.p_vaddr + i) = some (ph.byteAt data i)) ∧
      ∀ w < 2 ^ 47, (∀ ph ∈ phdrs, ph.Loaded → ¬ph.Covers w) → userByte s' root w = userByte s root w := by
  induction phdrs generalizing s pages with
  | nil =>
    obtain ⟨rfl, -, rfl⟩ : true = ok ∧ [] = pages ∧ s = s' := by
      simpa only [Proc.loadSegments, Option.some.injEq, Prod.mk.injEq] using hr
    exact ⟨rfl, hs, fun ph hph => absurd hph List.not_mem_nil, fun _ _ _ => rfl⟩
  | cons ph rest ih =>
    obtain ⟨hapart, hdisjoint⟩ := List.pairwise_cons.mp hdisjoint
    have htail : ∀ {p : Phdr → Prop}, (∀ q ∈ ph :: rest, p q) → ∀ q ∈ rest, p q :=
      fun h q hq => h q (List.mem_cons_of_mem _ hq)
    have hbase : USER_STACK_BASE = 0x700000000000 := rfl
    obtain ⟨hskip, hrest⟩ | ⟨hload, hround⟩ := loadSegments_round hr
    · -- a header that is passed over
      have hnot : ¬ph.Loaded := fun h => hskip.elim (fun h' => h' h.1) fun h' => h.2 h'
      obtain ⟨hok, hspace, hbytes, hother⟩ := ih (htail hproper) hdisjoint hs hrest
      refine ⟨hok, hspace, fun q hq hl => ?_, fun w hw hout => hother w hw (htail hout)⟩
      obtain rfl | hq := List.mem_cons.mp hq
      · exact absurd hl hnot
      · exact hbytes q hq hl
    · have hl : ph.Loaded := ⟨not_not.mp (not_or.mp hload).1, (not_or.mp hload).2⟩
      have hph := hproper ph List.mem_cons_self hl
      have hbelow := hph.pages_below
      obtain ⟨hmis, -⟩ | ⟨-, ok₁, pages₁, s₁, hseg, hround⟩ := hround
      · exact absurd hph.aligned hmis
      · rw [← Nat.zero_mul PAGE_SIZE] at hseg
        obtain ⟨hok₁, hspace, hfirst, hkeep⟩ := loadPages_image hserves hsize hph hs hseg
        rw [Nat.zero_mul] at hfirst hkeep
        obtain ⟨hno, -⟩ | ⟨-, more, -, hrest⟩ := hround
        · cases hno.symm.trans hok₁
        · obtain ⟨hok, hspace', hbytes, hother⟩ := ih (htail hproper) hdisjoint hspace hrest
          refine ⟨hok, hspace', fun q hq hlq => ?_, fun w hw hout => ?_⟩
          · obtain rfl | hq := List.mem_cons.mp hq
            · -- the other segments are in other pages
              intro i hi
              rw [hother _ (by omega), hfirst i (Nat.zero_le i) hi]
              intro p hp hlp hcovers
              exact hapart p hp hl hlp _ ⟨⟨Nat.le_add_right _ _, Nat.add_lt_add_left hi _⟩, hcovers⟩
            · exact hbytes q hq hlq
          · rw [hother w hw (htail hout)]
            exact hkeep w hw (hout ph List.mem_cons_self hl)

end

/-! ### How many frames are enough -/

/-- The pages of the segments. -/
def segmentPages (phdrs : List Phdr) : ℕ := (phdrs.map fun ph => (ph.p_memsz + (PAGE_SIZE - 1)) / PAGE_SIZE).sum

section

variable {f : ImageFile} {ph : Phdr} {root : ℕ}

theorem pokeBytes_pool (s : PageMem) (k : ℕ) (bs : List UInt8) : (pokeBytes s k bs).pool = s.pool := by
  induction bs generalizing s k with
  | nil => rfl
  | cons b bs ih =>
    rw [pokeBytes, ih]
    rfl

/-- A page takes a frame, and three tables at most. -/
theorem loadPages_some (s : PageMem) (fuel j n : ℕ) (hrounds : ph.p_memsz ≤ j + n * PAGE_SIZE)
    (hfits : j + n * PAGE_SIZE < 2 ^ 64) (hfuel : n < fuel) (hpool : 4 * n ≤ s.pool.length) :
    ∃ ok pages s', loadPages f root ph fuel j s = some (ok, pages, s') ∧ s.pool.length ≤ s'.pool.length + 4 * n := by
  induction n generalizing s fuel j with
  | zero =>
    obtain ⟨fuel, rfl⟩ := Nat.exists_eq_add_of_lt hfuel
    rw [Nat.zero_mul] at hrounds
    exact ⟨true, [], s, by rw [loadPages, if_neg (by omega)], Nat.le_add_right _ _⟩
  | succ n ih =>
    have hsucc : (n + 1) * PAGE_SIZE = n * PAGE_SIZE + PAGE_SIZE := Nat.succ_mul n PAGE_SIZE
    obtain ⟨fuel, rfl⟩ : ∃ k, fuel = k + 1 := ⟨fuel - 1, by omega⟩
    rw [loadPages]
    by_cases hin : j < ph.p_memsz
    · obtain ⟨frame, s₁, halloc, hlen⟩ := vmmAlloc_some s root ((ph.p_vaddr + j) % 2 ^ 64) userFlags (by omega)
      have hfilled : (pokeBytes (clearFrame s₁ frame) frame (ph.content f j).2).pool = s₁.pool := pokeBytes_pool ..
      simp only [if_pos hin, halloc]
      by_cases hshort : (ph.content f j).1 = false
      · rw [if_pos hshort]
        exact ⟨_, _, _, rfl, by rw [hfilled]; omega⟩
      · rw [if_neg hshort]
        obtain ⟨ok, pages, s', hrec, hlen'⟩ := ih (pokeBytes (clearFrame s₁ frame) frame (ph.content f j).2)
          fuel (j + PAGE_SIZE) (by omega) (by omega) (by omega) (by rw [hfilled]; omega)
        rw [Nat.mod_eq_of_lt (by omega), hrec]
        exact ⟨_, _, _, rfl, by rw [hfilled] at hlen'; omega⟩
    · rw [if_neg hin]
      exact ⟨true, [], s, rfl, Nat.le_add_right _ _⟩

/-- **Four frames for each page are enough.** -/
theorem loadSegments_some (s : PageMem) {phdrs : List Phdr} (hsizes : ∀ ph ∈ phdrs, ph.p_memsz ≤ USER_STACK_BASE)
    (hpool : 4 * segmentPages phdrs ≤ s.pool.length) : loadSegments f root phdrs s ≠ none := by
  induction phdrs generalizing s with
  | nil => exact Option.some_ne_none _
  | cons ph rest ih =>
    obtain ⟨n, hn⟩ : ∃ n, (ph.p_memsz + (PAGE_SIZE - 1)) / PAGE_SIZE = n := ⟨_, rfl⟩
    have hcons : segmentPages (ph :: rest) = n + segmentPages rest := hn ▸ List.sum_cons
    have hrest : ∀ q ∈ rest, q.p_memsz ≤ USER_STACK_BASE := fun q hq => hsizes q (List.mem_cons_of_mem _ hq)
    have hsize := hsizes ph List.mem_cons_self
    rw [hcons] at hpool
    rw [loadSegments]
    split
    · exact ih s hrest (by omega)
    · split
      · exact Option.some_ne_none _
      · have hrounds : ph.p_memsz ≤ 0 + n * PAGE_SIZE ∧ 0 + n * PAGE_SIZE < 2 ^ 64 := by
          rw [USER_STACK_BASE] at hsize
          rw [PAGE_SIZE] at *
          omega
        obtain ⟨ok, pages, s₁, hseg, hlen⟩ : ∃ ok pages s₁, loadPages f root ph (s.pool.length + 1) 0 s =
            some (ok, pages, s₁) ∧ s.pool.length ≤ s₁.pool.length + 4 * n :=
          loadPages_some s _ 0 n hrounds.1 hrounds.2 (by omega) (by omega)
        rw [hseg]
        cases ok with
        | false => exact Option.some_ne_none _
        | true =>
          obtain ⟨⟨ok₂, more, s₂⟩, hmore⟩ := Option.ne_none_iff_exists'.mp (ih s₁ hrest (by omega))
          simp only [hmore]
          exact Option.some_ne_none _

end

/-! ### The whole -/

section

variable {f : ImageFile} {data : List UInt8} {s₀ s : PageMem} {kernelPml4 pml4 : ℕ}

/-- **`load_elf` builds the image that the file describes**, as long as no frame is missing for it: it answers 0, each
segment holds the bytes of the file and zeros behind them, no other page but those of the stack is there, and the
program begins at `e_entry`. -/
theorem loadElf_image (hpool : s₀.FreshPool kernelPml4) (hspace : taskSpace kernelPml4 s₀ = some (pml4, s))
    (hserves : f.Serves data) (hdata : ExecImage data) (rip : ℕ) {argv : List (List UInt8)}
    (hargv : stackRoom (argv.take MAX_ARGS) ≤ USER_STACK_PAGES * PAGE_SIZE)
    (hframes : loadSegments f pml4 (phdrsOf data) s ≠ none) :
    ∃ r, loadElf f pml4 rip userStackTop argv s = some r ∧ r.rc = 0 ∧ r.rip = entryOf data ∧
      (∀ ph ∈ phdrsOf data, ph.Loaded → ∀ i < pageEnd ph.p_memsz,
        userByte r.mem pml4 (ph.p_vaddr + i) =
          some (if i < ph.p_filesz then data.getD (ph.p_offset + i) 0 else 0)) ∧
      ∀ v < 2 ^ 47, r.mem.pgtableKva pml4 v ≠ none → OnStack v ∨ ∃ ph ∈ phdrsOf data, ph.Loaded ∧ ph.Covers v := by
  have hbase : USER_STACK_BASE = 0x700000000000 := rfl
  have htop : userStackTop = 0x700000040000 := by decide
  obtain ⟨hs, hmapped⟩ := userSpace_of_taskSpace hpool hspace
  obtain ⟨⟨ok, pages, s₁⟩, hload⟩ := Option.ne_none_iff_exists'.mp hframes
  obtain ⟨rfl, hs₁, hbytes, hother⟩ := loadSegments_image hserves hdata.size hdata.proper hdata.disjoint hs hload
  -- a page that is there is one of the stack or of a segment
  have hpages : ∀ v < 2 ^ 47, Mapped s₁ pml4 v → OnStack v ∨ ∃ ph ∈ phdrsOf data, ph.Loaded ∧ ph.Covers v := by
    intro v hv hthere
    by_contra hnot
    obtain ⟨hstack, hsegs⟩ := not_or.mp hnot
    rw [Mapped, hother v hv fun ph hph hl hc => hsegs ⟨ph, hph, hl, hc⟩] at hthere
    exact hstack ((hmapped v hv).mp hthere)
  -- the pages of the stack are above the segments
  have hstack : ∀ v, OnStack v → Mapped s₁ pml4 v := by
    intro v hv
    have hlow := hv.1
    have hhigh := hv.2
    rw [Mapped, hother v (by omega)]
    · exact (hmapped v (by omega)).mpr hv
    · intro ph hph hl hc
      have hbelow := (hdata.proper ph hph hl).pages_below
      have hend := hc.2
      omega
  obtain ⟨rsp, argp, s₂, hsetup, hrsp, hwithin, -⟩ := setupUserStack_spec hs₁ hstack hargv
  refine ⟨⟨0, entryOf data, rsp, pages, s₂⟩, ?_, rfl, rfl, fun ph hph hl i hi => ?_, fun v hv hthere => ?_⟩
  · rw [loadElf, programHeaders_spec hserves hdata]
    simp only [hload, hsetup]
  · have hbelow := (hdata.proper ph hph hl).pages_below
    show userByte s₂ pml4 (ph.p_vaddr + i) = _
    rw [hwithin.outside hs₁ (by omega) (by omega) (.inl (by omega))]
    exact hbytes ph hph hl i hi
  · exact hpages v hv (hwithin.mapped_iff.mp (mapped_iff.mpr hthere))

end

/-- An executable with one segment of two bytes, of which the file has the first. -/
def twoBytes : List UInt8 :=
  [0x7f, 0x45, 0x4c, 0x46, 2, 1, 1, 0, 0, 0, 0, 0, 0, 0, 0, 0] ++ leBytes 2 ET_EXEC ++ leBytes 2 62 ++
    leBytes 4 1 ++ leBytes 8 0x400000 ++ leBytes 8 EHDR_SIZE ++ leBytes 8 0 ++ leBytes 4 0 ++ leBytes 2 EHDR_SIZE ++
    leBytes 2 PHDR_SIZE ++ leBytes 2 1 ++ leBytes 2 0 ++ leBytes 2 0 ++ leBytes 2 0 ++
    leBytes 4 PT_LOAD ++ leBytes 4 7 ++ leBytes 8 120 ++ leBytes 8 0x400000 ++ leBytes 8 0x400000 ++ leBytes 8 1 ++
    leBytes 8 2 ++ leBytes 8 PAGE_SIZE ++ [0x90]

theorem phdrsOf_twoBytes : phdrsOf twoBytes = [⟨PT_LOAD, 120, 0x400000, 1, 2⟩] := by decide

theorem twoBytes_execImage : ExecImage twoBytes := by
  refine ⟨by decide, by decide, by decide, by decide, by decide,
    by decide, fun ph hph _ => ?_, ?_⟩
  · rw [phdrsOf_twoBytes, List.mem_singleton] at hph
    subst hph
    exact ⟨by decide, by decide, by decide, by decide⟩
  · rw [phdrsOf_twoBytes]
    exact List.pairwise_singleton _ _

theorem loadElf_image_twoBytes : ∃ pml4 s r, taskSpace bootPml4 bootMem = some (pml4, s) ∧
    loadElf (imageOf twoBytes) pml4 0 userStackTop [[0x61]] s = some r ∧ r.rc = 0 ∧ r.rip = 0x400000 ∧
      userByte r.mem pml4 0x400000 = some 0x90 ∧ userByte r.mem pml4 0x400fff = some 0 := by
  obtain ⟨pml4, s, hspace, hlen⟩ := bootMem_taskSpace
  have hserves : (imageOf twoBytes).Serves twoBytes := fun off n hn _ => ⟨n, hn, rfl⟩
  have hargv : stackRoom (([[0x61]] : List (List UInt8)).take MAX_ARGS) ≤ USER_STACK_PAGES * PAGE_SIZE := by decide
  have hframes : loadSegments (imageOf twoBytes) pml4 (phdrsOf twoBytes) s ≠ none := by
    refine loadSegments_some s (fun ph hph => (?_ : ph.p_memsz ≤ USER_STACK_BASE)) ?_
    · rw [phdrsOf_twoBytes, List.mem_singleton] at hph
      subst hph
      decide
    · rw [phdrsOf_twoBytes]
      exact hlen
  obtain ⟨r, hload, hrc, hrip, hbytes, -⟩ :=
    loadElf_image bootMem_freshPool hspace hserves twoBytes_execImage 0 hargv hframes
  have hph : (⟨PT_LOAD, 120, 0x400000, 1, 2⟩ : Phdr) ∈ phdrsOf twoBytes := by
    rw [phdrsOf_twoBytes]
    exact List.mem_singleton_self _
  have hl : (⟨PT_LOAD, 120, 0x400000, 1, 2⟩ : Phdr).Loaded := ⟨rfl, by decide⟩
  have hentry : entryOf twoBytes = 0x400000 := by decide
  have hfile : twoBytes.getD 120 0 = 0x90 := by decide
  refine ⟨pml4, s, r, hspace, hload, hrc, hrip.trans hentry, ?_, ?_⟩
  · have hfirst := hbytes _ hph hl 0 (by decide)
    rw [if_pos (by decide)] at hfirst
    exact hfirst.trans (congrArg some hfile)
  · have hlast := hbytes _ hph hl 0xfff (by decide)
    rw [if_neg (by decide)] at hlast
    exact hlast

end LizardOs.Proc
