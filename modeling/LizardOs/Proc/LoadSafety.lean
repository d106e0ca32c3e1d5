import LizardOs.Mm.PageMap
import LizardOs.Proc.Loader

/-!
# What a program image can do to the kernel half

The loader maps the pages that the program headers ask for, wherever they are.  As long as these pages are in the user
half, a page table is written only on the way to one of them, and the bytes of the image go to frames that are no
tables, so no translation of the kernel half changes.  Which pages are mapped depends on the file alone: the loop gets
to a page when the pages before it are below `p_memsz` and the file has their bytes.
-/

namespace LizardOs.Proc

open LizardOs.Lib LizardOs.Mm LizardOs.Mm.PageMem

/-- The address is translated through the user half of the PML4. -/
def UserAddr (v : ℕ) : Prop := tableIndex v 39 < KERNEL_PML4_INDEX

/-! ### The bytes of the image -/

theorem readLoop_length (f : ImageFile) (fuel off len : ℕ) : (f.readLoop fuel off len).2.length ≤ len := by
  induction fuel generalizing off len with
  | zero => exact Nat.zero_le len
  | succ fuel ih =>
    rw [ImageFile.readLoop]
    split
    · exact Nat.zero_le len
    · split
      · exact Nat.zero_le len
      · have hshort := f.short off len
        have hrest := ih ((off + (f.read off len).length) % 2 ^ 64) (len - (f.read off len).length)
        show (f.read off len ++ _).length ≤ len
        rw [List.length_append]
        omega

/-- The bytes of a page fit into a page. -/
theorem content_length (f : ImageFile) (ph : Phdr) (j : ℕ) : (ph.content f j).2.length ≤ PAGE_SIZE := by
  have hfill : ph.fill j ≤ PAGE_SIZE := by
    rw [Phdr.fill]
    split
    · exact Nat.min_le_right _ _
    · exact Nat.zero_le _
  rw [Phdr.content]
  split
  · exact Nat.zero_le _
  · exact (readLoop_length f _ _ _).trans hfill

section

variable {own : List ℕ → Prop} {s s' : PageMem} {root : ℕ}

/-- Only the contents of one frame differ. -/
structure OnlyFrame (frame : ℕ) (s s' : PageMem) : Prop where
  pool : s'.pool = s.pool
  other : ∀ t, t ≠ frame → s'.entry t = s.entry t

theorem OnlyFrame.refl (frame : ℕ) (s : PageMem) : OnlyFrame frame s s := ⟨rfl, fun _ _ => rfl⟩

theorem OnlyFrame.trans {frame : ℕ} {s'' : PageMem} (h : OnlyFrame frame s s') (h' : OnlyFrame frame s' s'') :
    OnlyFrame frame s s'' :=
  ⟨h'.pool.trans h.pool, fun t ht => (h'.other t ht).trans (h.other t ht)⟩

theorem onlyFrame_clearFrame (s : PageMem) (frame : ℕ) : OnlyFrame frame s (clearFrame s frame) :=
  ⟨rfl, fun _ ht => Function.update_of_ne ht ..⟩

/-- Bytes written within a page are bytes of its frame. -/
theorem onlyFrame_pokeBytes {frame k : ℕ} {bs : List UInt8} (s : PageMem) (hframe : frame % PAGE_SIZE = 0)
    (hlow : frame ≤ k) (hhigh : k + bs.length ≤ frame + PAGE_SIZE) : OnlyFrame frame s (pokeBytes s k bs) := by
  induction bs generalizing s k with
  | nil => exact OnlyFrame.refl frame s
  | cons b bs ih =>
    rw [List.length_cons] at hhigh
    have hk : k / PAGE_SIZE * PAGE_SIZE = frame := by
      rw [PAGE_SIZE] at *
      omega
    have hfirst : OnlyFrame frame s (poke s k b) := by
      refine ⟨rfl, fun t ht => ?_⟩
      show writeCell s.entry (k / PAGE_SIZE * PAGE_SIZE) _ _ t = s.entry t
      rw [hk, writeCell_table ht]
    exact hfirst.trans (ih (poke s k b) (by omega) (by omega))

/-! ### One page -/

/-- The paths of `own` are a tree, and no page behind them is a table or free. -/
structure LoadOk (own : List ℕ → Prop) (s : PageMem) (root : ℕ) : Prop where
  closed : Closed own
  sub : ∀ P, own P → TablePath P
  tree : TreeOk own TablePath s root
  leaves : ∀ v, own (tablePath v) → present (s.leafOf root v) = true →
    ¬Reached TablePath s root (tableOf (s.leafOf root v)) ∧ tableOf (s.leafOf root v) ∉ s.pool

/-- The contents of a frame that is no table do not matter to any translation. -/
theorem OnlyFrame.loadOk {frame : ℕ} (h : OnlyFrame frame s s') (hs : LoadOk own s root)
    (hframe : ¬Reached TablePath s root frame) :
    LoadOk own s' root ∧ (∀ v, s'.leafOf root v = s.leafOf root v) ∧
      ∀ t, Reached TablePath s' root t ↔ Reached TablePath s root t := by
  have hclosed : Closed TablePath := Follows.closed _ 3
  have hwalk : ∀ P, TablePath P → walk nextTable s'.entry P root = walk nextTable s.entry P root :=
    fun P hP => walk_of_fresh hclosed (fun Q hQ hQt => hframe ⟨Q, hQ, hQt⟩) h.other hP
  have hleaf : ∀ v, s'.leafOf root v = s.leafOf root v := by
    intro v
    rw [leafOf, leafOf, cellAt, cellAt, hwalk _ (tablePath_tablePath v)]
    cases hu : walk nextTable s.entry (tablePath v) root with
    | none => rfl
    | some u =>
      have hne : u ≠ frame := fun heq => hframe ⟨tablePath v, tablePath_tablePath v, by rw [hu, heq]⟩
      exact congrFun (h.other u hne) _
  have hreached : ∀ t, Reached TablePath s' root t ↔ Reached TablePath s root t :=
    fun t => exists_congr fun P => and_congr_right fun hP => by rw [hwalk P hP]
  refine ⟨⟨hs.closed, hs.sub, ⟨hs.tree.tree.congr hs.sub hwalk, ?_, ?_, ?_⟩, fun v hv hp => ?_⟩, hleaf, hreached⟩
  · rw [h.pool]
    exact hs.tree.frames
  · rw [h.pool]
    exact hs.tree.nodup
  · intro f hf P hP
    rw [h.pool] at hf
    rw [hwalk P hP]
    exact hs.tree.fresh f hf P hP
  · rw [hleaf v] at hp ⊢
    rw [hreached, h.pool]
    exact hs.leaves v hv hp

/-- **`vmm_alloc`** translates its page to the frame, which is no table, and leaves the other translations. -/
theorem LoadOk.vmmAlloc {vaddr f : ℕ} (hs : LoadOk own s root) (hv : own (tablePath vaddr))
    (hr : s.vmmAlloc root vaddr userFlags = some (f, s')) :
    LoadOk own s' root ∧ present (s'.leafOf root vaddr) = true ∧
      (∀ w, (tablePath w, tableIndex w 12) ≠ (tablePath vaddr, tableIndex vaddr 12) →
        s'.leafOf root w = s.leafOf root w) ∧
      f % PAGE_SIZE = 0 ∧ ¬Reached TablePath s' root f := by
  have hflags : userFlags < PAGE_SIZE := by decide
  obtain ⟨rest, hpool, hmap⟩ := vmmAlloc_cases hr
  obtain ⟨htree₀, hframe, hfrest, hfresh⟩ := hs.tree.take hpool
  obtain ⟨htree, hself, hother, used, hused, hreached⟩ := htree₀.map_leaf hs.sub hs.closed hv hflags (by decide) hmap
  have hused : rest = used ++ s'.pool := hused
  have hback : ∀ t, Reached TablePath s' root t → Reached TablePath s root t ∨ t ∈ used := hreached
  obtain ⟨hpresent, hgives⟩ := hframe.of_entry hflags (by decide) hself
  -- a frame that was no table and not free is not a table now
  have hkeep : ∀ t, ¬Reached TablePath s root t → t ∉ rest → ¬Reached TablePath s' root t ∧ t ∉ s'.pool := by
    intro t ht hfree
    rw [hused, List.mem_append, not_or] at hfree
    refine ⟨fun h => ?_, hfree.2⟩
    rcases hback t h with h | h
    · exact ht h
    · exact hfree.1 h
  have hnew := hkeep f (fun ⟨P, hP, hPf⟩ => hfresh P hP hPf) hfrest
  refine ⟨⟨hs.closed, hs.sub, htree, fun w hw hp => ?_⟩, hpresent, hother, hframe.aligned, hnew.1⟩
  by_cases hcell : (tablePath w, tableIndex w 12) = (tablePath vaddr, tableIndex vaddr 12)
  · rw [leafOf_cell s' root hcell, hgives]
    exact hnew
  · rw [hother w hcell] at hp ⊢
    obtain ⟨htable, hfree⟩ := hs.leaves w hw hp
    exact hkeep _ htable fun hmem => hfree (by rw [hpool]; exact List.mem_cons_of_mem _ hmem)

/-- A page is mapped and filled. -/
theorem LoadOk.fill {vaddr f : ℕ} {bs : List UInt8} (hs : LoadOk own s root) (hv : own (tablePath vaddr))
    (hbs : bs.length ≤ PAGE_SIZE) (hr : s.vmmAlloc root vaddr userFlags = some (f, s')) :
    LoadOk own (pokeBytes (clearFrame s' f) f bs) root ∧
      present ((pokeBytes (clearFrame s' f) f bs).leafOf root vaddr) = true ∧
      ∀ w, (tablePath w, tableIndex w 12) ≠ (tablePath vaddr, tableIndex vaddr 12) →
        (pokeBytes (clearFrame s' f) f bs).leafOf root w = s.leafOf root w := by
  obtain ⟨hok, hpresent, hother, haligned, hframe⟩ := hs.vmmAlloc hv hr
  have honly : OnlyFrame f s' (pokeBytes (clearFrame s' f) f bs) :=
    (onlyFrame_clearFrame s' f).trans (onlyFrame_pokeBytes _ haligned le_rfl (by omega))
  obtain ⟨hok', hleaf, -⟩ := honly.loadOk hok hframe
  refine ⟨hok', ?_, fun w hw => (hleaf w).trans (hother w hw)⟩
  rw [hleaf]
  exact hpresent

end

/-! ### The user half -/

section

variable {s s' : PageMem} {root : ℕ}

/-- The address space stays in order, and so do the translations of the kernel half. -/
structure Kept (s s' : PageMem) (root : ℕ) : Prop where
  ok : LoadOk UserTablePath s' root
  kernel : ∀ v, ¬UserAddr v → s'.leafOf root v = s.leafOf root v

theorem Kept.trans {s'' : PageMem} (h : Kept s s' root) (h' : Kept s' s'' root) : Kept s s'' root :=
  ⟨h'.ok, fun v hv => (h'.kernel v hv).trans (h.kernel v hv)⟩

/-- An address of the user half and one of the kernel half are translated by different entries. -/
theorem cell_ne_of_kernel {v w : ℕ} (hv : UserAddr v) (hw : ¬UserAddr w) :
    (tablePath w, tableIndex w 12) ≠ (tablePath v, tableIndex v 12) := by
  intro heq
  have hpath := (Prod.mk.inj heq).1
  simp only [tablePath, List.cons.injEq] at hpath
  apply hw
  rw [UserAddr, hpath.1]
  exact hv

/-- A page of the user half is mapped and filled. -/
theorem LoadOk.page {vaddr f : ℕ} {bs : List UInt8} (hs : LoadOk UserTablePath s root) (hv : UserAddr vaddr)
    (hbs : bs.length ≤ PAGE_SIZE) (hr : s.vmmAlloc root vaddr userFlags = some (f, s')) :
    Kept s (pokeBytes (clearFrame s' f) f bs) root := by
  obtain ⟨hok, -, hother⟩ := hs.fill (userTablePath_tablePath hv) hbs hr
  exact ⟨hok, fun w hw => hother w (cell_ne_of_kernel hv hw)⟩

end

/-! ### The segments -/

section

variable {f : ImageFile} {ph : Phdr} {s s' : PageMem} {root : ℕ} {pages : List ℕ} {ok : Bool}

/-- What a round of the loop over the pages does. -/
theorem loadPages_round {fuel j : ℕ} (hr : loadPages f root ph (fuel + 1) j s = some (ok, pages, s')) :
    (¬j < ph.p_memsz ∧ ok = true ∧ pages = [] ∧ s' = s) ∨
    (j < ph.p_memsz ∧ ∃ frame s₁, s.vmmAlloc root ((ph.p_vaddr + j) % 2 ^ 64) userFlags = some (frame, s₁) ∧
      ((ph.content f j).1 = false ∧ ok = false ∧ pages = [(ph.p_vaddr + j) % 2 ^ 64] ∧
          s' = pokeBytes (clearFrame s₁ frame) frame (ph.content f j).2 ∨
        (ph.content f j).1 = true ∧ ∃ more, pages = (ph.p_vaddr + j) % 2 ^ 64 :: more ∧
          loadPages f root ph fuel ((j + PAGE_SIZE) % 2 ^ 64)
            (pokeBytes (clearFrame s₁ frame) frame (ph.content f j).2) = some (ok, more, s'))) := by
  rw [loadPages] at hr
  split at hr
  · rename_i hin
    refine .inr ⟨hin, ?_⟩
    cases halloc : s.vmmAlloc root ((ph.p_vaddr + j) % 2 ^ 64) userFlags with
    | none =>
      rw [halloc] at hr
      cases hr
    | some r =>
      obtain ⟨frame, s₁⟩ := r
      rw [halloc] at hr
      simp only [] at hr
      refine ⟨frame, s₁, rfl, ?_⟩
      split at hr
      · rename_i hshort
        simp only [Option.some.injEq, Prod.mk.injEq] at hr
        exact .inl ⟨hshort, hr.1.symm, hr.2.1.symm, hr.2.2.symm⟩
      · rename_i hfull
        refine .inr ⟨Bool.of_not_eq_false hfull, ?_⟩
        cases hrec : loadPages f root ph fuel ((j + PAGE_SIZE) % 2 ^ 64)
          (pokeBytes (clearFrame s₁ frame) frame (ph.content f j).2) with
        | none =>
          rw [hrec] at hr
          cases hr
        | some x =>
          obtain ⟨ok₁, more, s₂⟩ := x
          rw [hrec] at hr
          simp only [Option.some.injEq, Prod.mk.injEq] at hr
          obtain ⟨rfl, rfl, rfl⟩ := hr
          exact ⟨more, rfl, rfl⟩
  · rename_i hout
    simp only [Option.some.injEq, Prod.mk.injEq] at hr
    exact .inl ⟨hout, hr.1.symm, hr.2.1.symm, hr.2.2.symm⟩

/-- What the loop over the program headers does with one of them. -/
theorem loadSegments_round {rest : List Phdr} (hr : loadSegments f root (ph :: rest) s = some (ok, pages, s')) :
    ((ph.p_type ≠ PT_LOAD ∨ ph.p_memsz = 0) ∧ loadSegments f root rest s = some (ok, pages, s')) ∨
    (¬(ph.p_type ≠ PT_LOAD ∨ ph.p_memsz = 0) ∧
      (ph.p_vaddr % PAGE_SIZE ≠ 0 ∧ ok = false ∧ pages = [] ∧ s' = s ∨
        ph.p_vaddr % PAGE_SIZE = 0 ∧ ∃ ok₁ pages₁ s₁,
          loadPages f root ph (s.pool.length + 1) 0 s = some (ok₁, pages₁, s₁) ∧
            (ok₁ = false ∧ ok = false ∧ pages = pages₁ ∧ s' = s₁ ∨
              ok₁ = true ∧ ∃ more, pages = pages₁ ++ more ∧ loadSegments f root rest s₁ = some (ok, more, s')))) := by
  rw [loadSegments] at hr
  split at hr
  · rename_i hskip
    exact .inl ⟨hskip, hr⟩
  · rename_i hskip
    refine .inr ⟨hskip, ?_⟩
    split at hr
    · rename_i hmis
      simp only [Option.some.injEq, Prod.mk.injEq] at hr
      exact .inl ⟨hmis, hr.1.symm, hr.2.1.symm, hr.2.2.symm⟩
    · rename_i hmis
      refine .inr ⟨not_not.mp hmis, ?_⟩
      cases hseg : loadPages f root ph (s.pool.length + 1) 0 s with
      | none =>
        rw [hseg] at hr
        cases hr
      | some x =>
        obtain ⟨ok₁, pages₁, s₁⟩ := x
        rw [hseg] at hr
        refine ⟨ok₁, pages₁, s₁, rfl, ?_⟩
        cases ok₁ with
        | false =>
          simp only [Option.some.injEq, Prod.mk.injEq] at hr
          exact .inl ⟨rfl, hr.1.symm, hr.2.1.symm, hr.2.2.symm⟩
        | true =>
          refine .inr ⟨rfl, ?_⟩
          cases hrest : loadSegments f root rest s₁ with
          | none =>
            simp only [hrest] at hr
            cases hr
          | some y =>
            obtain ⟨ok₂, more, s₂⟩ := y
            simp only [hrest, Option.some.injEq, Prod.mk.injEq] at hr
            obtain ⟨rfl, rfl, rfl⟩ := hr
            exact ⟨more, rfl, rfl⟩

/-- Pages of the user half leave the kernel half alone. -/
theorem kept_of_loadPages {fuel j : ℕ} (hs : LoadOk UserTablePath s root)
    (hr : loadPages f root ph fuel j s = some (ok, pages, s')) (huser : ∀ v ∈ pages, UserAddr v) :
    Kept s s' root := by
  induction fuel generalizing j s pages with
  | zero => cases hr
  | succ fuel ih =>
    obtain ⟨-, -, -, rfl⟩ | ⟨-, frame, s₁, halloc, hround⟩ := loadPages_round hr
    · exact ⟨hs, fun _ _ => rfl⟩
    · obtain ⟨-, -, rfl, rfl⟩ | ⟨-, more, rfl, hrec⟩ := hround
      · exact hs.page (huser _ List.mem_cons_self) (content_length f ph j) halloc
      · have hpage := hs.page (huser _ List.mem_cons_self) (content_length f ph j) halloc
        exact hpage.trans (ih hpage.ok hrec fun v hv => huser v (List.mem_cons_of_mem _ hv))

/-- The address of the page of a round. -/
def Phdr.pageAt (ph : Phdr) (r : ℕ) : ℕ := (ph.p_vaddr + r * PAGE_SIZE % 2 ^ 64) % 2 ^ 64

/-- The loop goes into a round. -/
def Phdr.InLoop (ph : Phdr) (r : ℕ) : Prop := r * PAGE_SIZE % 2 ^ 64 < ph.p_memsz

/-- The loop gets to the end of its first `r` rounds: it goes into each of them, and the file has the bytes of the
page. -/
def Phdr.Arrives (f : ImageFile) (ph : Phdr) : ℕ → Prop
  | 0 => True
  | r + 1 => ph.Arrives f r ∧ ph.InLoop r ∧ (ph.content f (r * PAGE_SIZE % 2 ^ 64)).1 = true

theorem Phdr.Arrives.earlier {q r : ℕ} (h : ph.Arrives f r) (hq : q < r) :
    ph.InLoop q ∧ (ph.content f (q * PAGE_SIZE % 2 ^ 64)).1 = true := by
  induction r with
  | zero => exact absurd hq (Nat.not_lt_zero q)
  | succ r ih =>
    rcases Nat.lt_succ_iff_lt_or_eq.mp hq with hlt | rfl
    · exact ih h.1 hlt
    · exact h.2

/-- **Which pages a segment maps**, and when it is mapped whole. -/
theorem loadPages_pages {fuel r : ℕ} (harrive : ph.Arrives f r)
    (hr : loadPages f root ph fuel (r * PAGE_SIZE % 2 ^ 64) s = some (ok, pages, s')) :
    (∀ v, v ∈ pages ↔ ∃ q, r ≤ q ∧ ph.Arrives f q ∧ ph.InLoop q ∧ v = ph.pageAt q) ∧
      (ok = true ↔ ∃ q, ph.Arrives f q ∧ ¬ph.InLoop q) := by
  induction fuel generalizing r s pages with
  | zero => cases hr
  | succ fuel ih =>
    obtain ⟨hout, rfl, rfl, -⟩ | ⟨hin, frame, s₁, -, hround⟩ := loadPages_round hr
    · have hout : ¬ph.InLoop r := hout
      refine ⟨fun v => ⟨nofun, ?_⟩, fun _ => ⟨r, harrive, hout⟩, fun _ => rfl⟩
      rintro ⟨q, hrq, hq, hqin, -⟩
      rcases Nat.lt_or_eq_of_le hrq with hlt | rfl
      · exact absurd (hq.earlier hlt).1 hout
      · exact absurd hqin hout
    have hin : ph.InLoop r := hin
    obtain ⟨hshort, rfl, rfl, -⟩ | ⟨hfull, more, rfl, hrec⟩ := hround
    · -- no round comes after one that the file has no bytes for
      have hlast : ∀ q, ph.Arrives f q → q ≤ r := by
        intro q hq
        by_contra hlt
        rw [(hq.earlier (Nat.lt_of_not_le hlt)).2] at hshort
        cases hshort
      refine ⟨fun v => ?_, ⟨nofun, fun ⟨q, hq, hout⟩ => ?_⟩⟩
      · rw [List.mem_singleton]
        constructor
        · rintro rfl
          exact ⟨r, le_rfl, harrive, hin, rfl⟩
        · rintro ⟨q, hrq, hq, -, rfl⟩
          rw [Nat.le_antisymm (hlast q hq) hrq]
          rfl
      · rcases Nat.lt_or_eq_of_le (hlast q hq) with hlt | rfl
        · exact absurd (harrive.earlier hlt).1 hout
        · exact absurd hin hout
    · have hnext : (r * PAGE_SIZE % 2 ^ 64 + PAGE_SIZE) % 2 ^ 64 = (r + 1) * PAGE_SIZE % 2 ^ 64 := by
        rw [Nat.mod_add_mod, Nat.succ_mul]
      rw [hnext] at hrec
      have harrive' : ph.Arrives f (r + 1) := ⟨harrive, hin, hfull⟩
      obtain ⟨hpages, hok⟩ := ih harrive' hrec
      refine ⟨fun v => ?_, hok⟩
      rw [List.mem_cons, hpages v]
      constructor
      · rintro (rfl | ⟨q, hrq, hq⟩)
        · exact ⟨r, le_rfl, harrive, hin, rfl⟩
        · exact ⟨q, by omega, hq⟩
      · rintro ⟨q, hrq, hq, hqin, rfl⟩
        rcases Nat.lt_or_eq_of_le hrq with hlt | rfl
        · exact .inr ⟨q, hlt, hq, hqin, rfl⟩
        · exact .inl rfl

/-- The pages that the loader gets to are in the user half: in each `PT_LOAD` segment, up to the first segment that is
not aligned or whose bytes the file does not have. -/
def UserSegments (f : ImageFile) : List Phdr → Prop
  | [] => True
  | ph :: rest =>
      if ph.p_type ≠ PT_LOAD ∨ ph.p_memsz = 0 then UserSegments f rest
      else if ph.p_vaddr % PAGE_SIZE ≠ 0 then True
      else (∀ r, ph.Arrives f r → ph.InLoop r → UserAddr (ph.pageAt r)) ∧
        ((∃ r, ph.Arrives f r ∧ ¬ph.InLoop r) → UserSegments f rest)

/-- The segments of an image leave the kernel half alone, and are mapped in the user half, when they ask for nothing
else. -/
theorem loadSegments_spec {phdrs : List Phdr} (hs : LoadOk UserTablePath s root)
    (hr : loadSegments f root phdrs s = some (ok, pages, s')) :
    ((∀ v ∈ pages, UserAddr v) ↔ UserSegments f phdrs) ∧ ((∀ v ∈ pages, UserAddr v) → Kept s s' root) := by
  induction phdrs generalizing s pages with
  | nil =>
    obtain ⟨-, rfl, rfl⟩ : true = ok ∧ [] = pages ∧ s = s' := by
      simpa only [loadSegments, Option.some.injEq, Prod.mk.injEq] using hr
    exact ⟨⟨fun _ => trivial, fun _ v hv => absurd hv List.not_mem_nil⟩, fun _ => ⟨hs, fun _ _ => rfl⟩⟩
  | cons ph rest ih =>
    rw [UserSegments]
    obtain ⟨hskip, hrest⟩ | ⟨hskip, ⟨hmis, -, rfl, rfl⟩ | ⟨haligned, ok₁, pages₁, s₁, hseg, hround⟩⟩ :=
      loadSegments_round hr
    · rw [if_pos hskip]
      exact ih hs hrest
    · rw [if_neg hskip, if_pos hmis]
      exact ⟨⟨fun _ => trivial, fun _ v hv => absurd hv List.not_mem_nil⟩, fun _ => ⟨hs, fun _ _ => rfl⟩⟩
    · rw [if_neg hskip, if_neg (not_not.mpr haligned)]
      have hstart : (0 : ℕ) = 0 * PAGE_SIZE % 2 ^ 64 := by rw [Nat.zero_mul, Nat.zero_mod]
      rw [hstart] at hseg
      obtain ⟨hpages, hwhole⟩ := loadPages_pages (r := 0) trivial hseg
      have huser : (∀ v ∈ pages₁, UserAddr v) ↔ ∀ r, ph.Arrives f r → ph.InLoop r → UserAddr (ph.pageAt r) := by
        constructor
        · intro h r harrive hin
          exact h _ ((hpages _).mpr ⟨r, Nat.zero_le r, harrive, hin, rfl⟩)
        · intro h v hv
          obtain ⟨r, -, harrive, hin, rfl⟩ := (hpages v).mp hv
          exact h r harrive hin
      obtain ⟨rfl, -, rfl, rfl⟩ | ⟨rfl, more, rfl, hrest⟩ := hround
      · have hnot : ¬∃ r, ph.Arrives f r ∧ ¬ph.InLoop r := fun h => absurd (hwhole.mpr h) nofun
        refine ⟨?_, kept_of_loadPages hs hseg⟩
        rw [huser]
        exact ⟨fun h => ⟨h, fun hex => absurd hex hnot⟩, fun h => h.1⟩
      · have hex := hwhole.mp rfl
        have hsplit : (∀ v ∈ pages₁ ++ more, UserAddr v) ↔
            (∀ v ∈ pages₁, UserAddr v) ∧ ∀ v ∈ more, UserAddr v := List.forall_mem_append
        by_cases hfirst : ∀ v ∈ pages₁, UserAddr v
        · have hkept := kept_of_loadPages hs hseg hfirst
          obtain ⟨hiff, hmore⟩ := ih hkept.ok hrest
          refine ⟨?_, fun h => hkept.trans (hmore (hsplit.mp h).2)⟩
          rw [hsplit, hiff, ← huser]
          exact ⟨fun h => ⟨h.1, fun _ => h.2⟩, fun h => ⟨h.1, h.2 hex⟩⟩
        · refine ⟨⟨fun h => absurd (hsplit.mp h).1 hfirst, fun h => absurd (huser.mpr h.1) hfirst⟩, fun h => ?_⟩
          exact absurd (hsplit.mp h).1 hfirst

end

/-! ### The stack -/

section

variable {s s' : PageMem} {root : ℕ}

/-- A copy to user-half addresses goes to the pages that are there. -/
theorem kept_of_ucopyLoop {fuel uva : ℕ} {src : List UInt8} (hs : LoadOk UserTablePath s root)
    (hfits : uva + src.length ≤ 2 ^ 47) (hr : ucopyLoop root fuel uva src s = some s') : Kept s s' root := by
  induction fuel generalizing uva src s with
  | zero =>
    obtain rfl := Option.some.inj hr
    exact ⟨hs, fun _ _ => rfl⟩
  | succ fuel ih =>
    rw [ucopyLoop] at hr
    split at hr
    · obtain rfl := Option.some.inj hr
      exact ⟨hs, fun _ _ => rfl⟩
    · rename_i hne
      have hpos : 0 < src.length := List.length_pos_iff.mpr hne
      cases hkva : s.pgtableKva root uva with
      | none =>
        rw [hkva] at hr
        cases hr
      | some k =>
        rw [hkva] at hr
        -- the address is in the frame, at the same place as in the page
        obtain ⟨hpresent, rfl⟩ := pgtableKva_eq_some_iff.mp hkva
        simp only [] at hr
        set frame := tableOf (s.leafOf root uva) with hframe
        set chunk := min (PAGE_SIZE - uva % PAGE_SIZE) src.length with hchunk
        have huser : UserAddr uva := tableIndex_user (by omega)
        obtain ⟨htable, -⟩ := hs.leaves uva (userTablePath_tablePath huser) hpresent
        have htake : (src.take chunk).length = chunk := List.length_take_of_le (Nat.min_le_right _ _)
        have hroom : uva % PAGE_SIZE + chunk ≤ PAGE_SIZE := by
          have hlt := Nat.mod_lt uva (show 0 < PAGE_SIZE by decide)
          have hmin : chunk ≤ PAGE_SIZE - uva % PAGE_SIZE := Nat.min_le_left _ _
          omega
        have hle : chunk ≤ src.length := Nat.min_le_right _ _
        have honly : OnlyFrame frame s (pokeBytes s (frame + uva % PAGE_SIZE) (src.take chunk)) :=
          onlyFrame_pokeBytes s (tableOf_aligned _) (Nat.le_add_right _ _) (by rw [htake]; omega)
        obtain ⟨hok, hleaf, -⟩ := honly.loadOk hs htable
        have hmod : (uva + chunk) % 2 ^ 64 = uva + chunk := Nat.mod_eq_of_lt (by omega)
        rw [hmod] at hr
        have hrest := ih hok (by rw [List.length_drop]; omega) hr
        exact Kept.trans ⟨hok, fun v _ => hleaf v⟩ hrest

theorem sub64_of_le {a b : ℕ} (ha : a < 2 ^ 64) (hb : b ≤ a) : sub64 a b = a - b := by
  rw [sub64]
  omega

/-- The room that strings take on the stack, each with its end. -/
def stringRoom (strs : List (List UInt8)) : ℕ := (strs.map fun str => str.length + 1).sum

theorem kept_of_pushStrings {strs : List (List UInt8)} {sp top : ℕ} {argp : List ℕ} (hs : LoadOk UserTablePath s root)
    (hsp : sp ≤ 2 ^ 47) (hroom : stringRoom strs ≤ sp) (hr : pushStrings root strs sp s = some (top, argp, s')) :
    Kept s s' root ∧ top = sp - stringRoom strs ∧ argp.length = strs.length := by
  induction strs generalizing s sp argp with
  | nil =>
    obtain ⟨rfl, rfl, rfl⟩ : sp = top ∧ [] = argp ∧ s = s' := by
      simpa only [pushStrings, Option.some.injEq, Prod.mk.injEq] using hr
    exact ⟨⟨hs, fun _ _ => rfl⟩, rfl, rfl⟩
  | cons str strs ih =>
    have hcons : stringRoom (str :: strs) = str.length + 1 + stringRoom strs := List.sum_cons
    rw [hcons] at hroom ⊢
    rw [pushStrings, sub64_of_le (by omega) (by omega)] at hr
    cases hcopy : ucopy root (sp - (str.length + 1)) (str ++ [0]) s with
    | none =>
      simp only [hcopy] at hr
      cases hr
    | some s₁ =>
      simp only [hcopy] at hr
      cases hrest : pushStrings root strs (sp - (str.length + 1)) s₁ with
      | none =>
        rw [hrest] at hr
        cases hr
      | some x =>
        obtain ⟨top₁, argp₁, s₂⟩ := x
        rw [hrest] at hr
        obtain ⟨rfl, rfl, rfl⟩ : top₁ = top ∧ (sp - (str.length + 1)) :: argp₁ = argp ∧ s₂ = s' := by
          simpa only [Option.some.injEq, Prod.mk.injEq] using hr
        have hkept : Kept s s₁ root := by
          apply kept_of_ucopyLoop hs _ hcopy
          rw [List.length_append, List.length_singleton]
          omega
        obtain ⟨hkept', rfl, hlen⟩ := ih hkept.ok (by omega) (by omega) hrest
        refine ⟨hkept.trans hkept', by omega, ?_⟩
        rw [List.length_cons, List.length_cons, hlen]

theorem kept_of_pushWords {ws : List ℕ} {sp top : ℕ} (hs : LoadOk UserTablePath s root) (hsp : sp ≤ 2 ^ 47)
    (hroom : 8 * ws.length ≤ sp) (hr : pushWords root ws sp s = some (top, s')) : Kept s s' root := by
  induction ws generalizing s sp with
  | nil =>
    obtain ⟨-, rfl⟩ : sp = top ∧ s = s' := by
      simpa only [pushWords, Option.some.injEq, Prod.mk.injEq] using hr
    exact ⟨hs, fun _ _ => rfl⟩
  | cons w ws ih =>
    rw [List.length_cons] at hroom
    rw [pushWords, sub64_of_le (by omega) (by omega)] at hr
    cases hput : uput64 root (sp - 8) w s with
    | none =>
      rw [hput] at hr
      cases hr
    | some s₁ =>
      rw [hput] at hr
      have hkept : Kept s s₁ root := by
        apply kept_of_ucopyLoop hs _ hput
        rw [List.length_map, List.length_range]
        omega
      exact hkept.trans (ih hkept.ok (by omega) (by omega) hr)

/-- **`setup_user_stack`** leaves the kernel half alone. -/
theorem kept_of_setupUserStack {argv : List (List UInt8)} {sp : ℕ} (hs : LoadOk UserTablePath s root)
    (hargv : stringRoom argv ≤ 1024) (hr : setupUserStack root userStackTop argv s = some (sp, s')) :
    Kept s s' root := by
  have htop : userStackTop = 0x700000040000 := by decide
  rw [setupUserStack] at hr
  have hargs : stringRoom (argv.take MAX_ARGS).reverse ≤ 1024 := by
    have hsum : stringRoom (argv.take MAX_ARGS).reverse = stringRoom (argv.take MAX_ARGS) := by
      rw [stringRoom, List.map_reverse, List.sum_reverse]
      rfl
    have hsplit : stringRoom argv = stringRoom (argv.take MAX_ARGS) + stringRoom (argv.drop MAX_ARGS) := by
      rw [stringRoom, stringRoom, stringRoom, ← List.sum_append, ← List.map_append, List.take_append_drop]
    omega
  have hcount : (argv.take MAX_ARGS).length ≤ 32 := List.length_take_le _ _
  cases hpush : pushStrings root (argv.take MAX_ARGS).reverse userStackTop s with
  | none =>
    rw [hpush] at hr
    cases hr
  | some x =>
    obtain ⟨top, argp, s₁⟩ := x
    rw [hpush] at hr
    obtain ⟨hkept, htop', hlen⟩ := kept_of_pushStrings hs (by omega) (by omega) hpush
    rw [List.length_reverse] at hlen
    simp only [] at hr
    refine hkept.trans (kept_of_pushWords hkept.ok ?_ ?_ hr)
    · split
      · rw [sub64_of_le (by omega) (by omega)]
        omega
      · omega
    · rw [List.length_append, List.length_append, List.length_singleton, hlen]
      split
      · rw [sub64_of_le (by omega) (by omega)]
        simp only [List.length_cons, List.length_nil]
        omega
      · simp only [List.length_cons, List.length_nil]
        omega

end

/-! ### The whole -/

section

variable {f : ImageFile} {s₀ s : PageMem} {kernelPml4 pml4 rip : ℕ} {argv : List (List UInt8)} {r : Loaded}

/-- The pages of the stack are in the user half. -/
theorem LoadOk.mapStack {own : List ℕ → Prop} {is : List ℕ} {s s' : PageMem} {root : ℕ} (hs : LoadOk own s root)
    (hown : ∀ P, UserTablePath P → own P) (his : ∀ i ∈ is, i < USER_STACK_PAGES) (hr : mapStack root is s = some s') :
    LoadOk own s' root ∧ ∀ w, ¬UserAddr w → s'.leafOf root w = s.leafOf root w := by
  induction is generalizing s with
  | nil =>
    obtain rfl := Option.some.inj hr
    exact ⟨hs, fun _ _ => rfl⟩
  | cons i is ih =>
    have hi := his i List.mem_cons_self
    have hv : UserAddr (USER_STACK_BASE + i * PAGE_SIZE) := by
      apply tableIndex_user
      rw [USER_STACK_PAGES] at hi
      rw [USER_STACK_BASE, PAGE_SIZE]
      omega
    rw [Proc.mapStack] at hr
    cases halloc : s.vmmAlloc root (USER_STACK_BASE + i * PAGE_SIZE) userFlags with
    | none =>
      rw [halloc] at hr
      cases hr
    | some x =>
      obtain ⟨frame, s₁⟩ := x
      rw [halloc] at hr
      have hempty : ([] : List UInt8).length ≤ PAGE_SIZE := Nat.zero_le _
      obtain ⟨hok, -, hother⟩ := hs.fill (hown _ (userTablePath_tablePath hv)) hempty halloc
      obtain ⟨hok', hkernel⟩ := ih hok (fun j hj => his j (List.mem_cons_of_mem _ hj)) hr
      exact ⟨hok', fun w hw => (hkernel w hw).trans (hother w (cell_ne_of_kernel hv hw))⟩

/-- A task's address space is its tables and its stack. -/
theorem taskSpace_cases (hr : taskSpace kernelPml4 s₀ = some (pml4, s)) :
    ∃ s₁, s₀.pgtableCreate kernelPml4 = some (pml4, s₁) ∧
      Proc.mapStack pml4 (List.range USER_STACK_PAGES) s₁ = some s := by
  rw [taskSpace] at hr
  cases hcreate : s₀.pgtableCreate kernelPml4 with
  | none =>
    rw [hcreate] at hr
    cases hr
  | some x =>
    obtain ⟨root, s₁⟩ := x
    rw [hcreate] at hr
    obtain ⟨s₂, hstack, heq⟩ := Option.map_eq_some_iff.mp hr
    obtain ⟨rfl, rfl⟩ := Prod.mk.inj heq
    exact ⟨s₁, rfl, hstack⟩

/-- The address space of a new task is in order. -/
theorem loadOk_of_taskSpace (hpool : s₀.FreshPool kernelPml4) (hr : taskSpace kernelPml4 s₀ = some (pml4, s)) :
    LoadOk UserTablePath s pml4 := by
  obtain ⟨s₁, hcreate, hstack⟩ := taskSpace_cases hr
  have hok : LoadOk UserTablePath s₁ pml4 := by
    refine ⟨Follows.closed _ 3, fun _ h => h.tablePath, TreeOk.create hpool hcreate, fun v hv hp => ?_⟩
    have hv : UserAddr v := List.mem_range.mp hv.1
    rw [leafOf_create hpool hcreate hv] at hp
    exact absurd hp (by decide)
  exact (hok.mapStack (fun _ h => h) (fun i hi => List.mem_range.mp hi) hstack).1

/-- The image asks for pages of the user half only, as far as the loader gets. -/
def UserImage (f : ImageFile) : Prop :=
  match programHeaders f with
  | none => True
  | some (_, phdrs) => UserSegments f phdrs

/-- **`load_elf` and the kernel half**: whatever it answers, the translations of the kernel half are as before and the
pages it mapped are in the user half exactly when the pages that the program headers ask for are. -/
theorem loadElf_kernel_iff (hpool : s₀.FreshPool kernelPml4) (hspace : taskSpace kernelPml4 s₀ = some (pml4, s))
    (hargv : stringRoom argv ≤ 1024) (hr : loadElf f pml4 rip userStackTop argv s = some r) :
    ((∀ v, KERNEL_PML4_INDEX ≤ tableIndex v 39 → r.mem.pgtableKva pml4 v = s.pgtableKva pml4 v) ∧
      ∀ v ∈ r.pages, tableIndex v 39 < KERNEL_PML4_INDEX) ↔ UserImage f := by
  have hs := loadOk_of_taskSpace hpool hspace
  -- pages of the user half leave the translations alone
  have hkva : ∀ s', Kept s s' pml4 → ∀ v, KERNEL_PML4_INDEX ≤ tableIndex v 39 →
      s'.pgtableKva pml4 v = s.pgtableKva pml4 v := by
    intro s' hkept v hv
    rw [pgtableKva_eq, pgtableKva_eq, hkept.kernel v (Nat.not_lt.mpr hv)]
  rw [loadElf] at hr
  rw [UserImage]
  cases hheaders : programHeaders f with
  | none =>
    rw [hheaders] at hr
    obtain rfl := Option.some.inj hr
    exact ⟨fun _ => trivial, fun _ => ⟨fun _ _ => rfl, fun v hv => absurd hv List.not_mem_nil⟩⟩
  | some x =>
    obtain ⟨entry, phdrs⟩ := x
    rw [hheaders] at hr
    simp only [] at hr ⊢
    cases hload : loadSegments f pml4 phdrs s with
    | none =>
      rw [hload] at hr
      cases hr
    | some y =>
      obtain ⟨ok, pages, s₁⟩ := y
      obtain ⟨hiff, hkept⟩ := loadSegments_spec hs hload
      rw [← hiff]
      rw [hload] at hr
      cases ok with
      | false =>
        obtain rfl := Option.some.inj hr
        exact ⟨fun h => h.2, fun h => ⟨hkva s₁ (hkept h), h⟩⟩
      | true =>
        cases hstack : setupUserStack pml4 userStackTop argv s₁ with
        | none =>
          simp only [hstack] at hr
          cases hr
        | some z =>
          obtain ⟨sp, s₂⟩ := z
          simp only [hstack] at hr
          obtain rfl := Option.some.inj hr
          refine ⟨fun h => h.2, fun h => ⟨hkva s₂ ?_, h⟩⟩
          have hkept := hkept h
          exact hkept.trans (kept_of_setupUserStack hkept.ok hargv hstack)

end

/-! ### Two images -/

/-- A file with the given bytes. -/
def imageOf (bytes : List UInt8) : ImageFile where
  read off n := (bytes.drop off).take n
  short off n := List.length_take_le n (bytes.drop off)

/-- A number in `n` bytes. -/
def leBytes (n v : ℕ) : List UInt8 := (List.range n).map (leByte v)

/-- An image with one segment of one byte, which the file does not have. -/
def tinyImage (vaddr : ℕ) : ImageFile :=
  imageOf ([0x7f, 0x45, 0x4c, 0x46, 2, 1, 1, 0, 0, 0, 0, 0, 0, 0, 0, 0] ++ leBytes 2 ET_EXEC ++ leBytes 2 62 ++
    leBytes 4 1 ++ leBytes 8 vaddr ++ leBytes 8 EHDR_SIZE ++ leBytes 8 0 ++ leBytes 4 0 ++ leBytes 2 EHDR_SIZE ++
    leBytes 2 PHDR_SIZE ++ leBytes 2 1 ++ leBytes 2 0 ++ leBytes 2 0 ++ leBytes 2 0 ++
    leBytes 4 PT_LOAD ++ leBytes 4 7 ++ leBytes 8 PAGE_SIZE ++ leBytes 8 vaddr ++ leBytes 8 vaddr ++ leBytes 8 1 ++
    leBytes 8 1 ++ leBytes 8 PAGE_SIZE)

/-- The kernel's first table. -/
def bootPml4 : ℕ := HHDM_OFFSET + 0x1000

/-- A kernel with one table below its first one, and three hundred free frames. -/
def bootMem : PageMem :=
  ⟨fun t i => if t = bootPml4 ∧ i = KERNEL_PML4_INDEX then 0x2003 else 0,
    (List.range 300).map fun i => HHDM_OFFSET + 0x100000 + i * PAGE_SIZE⟩

/-- The tables of this kernel. -/
theorem bootMem_walk {P : List ℕ} {t : ℕ} (h : walk nextTable bootMem.entry P bootPml4 = some t) :
    P = [] ∧ t = bootPml4 ∨ P = [KERNEL_PML4_INDEX] ∧ t = HHDM_OFFSET + 0x2000 := by
  have hempty : ∀ t i, t ≠ bootPml4 ∨ i ≠ KERNEL_PML4_INDEX → nextTable (bootMem.entry t i) = none := by
    intro t i hne
    show nextTable (if t = bootPml4 ∧ i = KERNEL_PML4_INDEX then 0x2003 else 0) = none
    rw [if_neg fun h => hne.elim (fun h' => h' h.1) fun h' => h' h.2, nextTable_zero]
  match P, h with
  | [], h => exact .inl ⟨rfl, (Option.some.inj h).symm⟩
  | i :: P, h =>
    have hbind : (nextTable (bootMem.entry bootPml4 i)).bind (walk nextTable bootMem.entry P) = some t := h
    by_cases hi : i = KERNEL_PML4_INDEX
    · have hsecond : nextTable (bootMem.entry bootPml4 i) = some (HHDM_OFFSET + 0x2000) := by
        rw [hi]
        decide
      rw [hsecond] at hbind
      match P, hbind with
      | [], hbind => exact .inr ⟨by rw [hi], (Option.some.inj hbind).symm⟩
      | j :: P, hbind =>
        have hbind : (nextTable (bootMem.entry (HHDM_OFFSET + 0x2000) j)).bind (walk nextTable bootMem.entry P) =
          some t := hbind
        rw [hempty _ j (.inl (by decide))] at hbind
        cases hbind
    · rw [hempty bootPml4 i (.inr hi)] at hbind
      cases hbind

theorem bootMem_freshPool : bootMem.FreshPool bootPml4 := by
  have hmem : ∀ f ∈ bootMem.pool, IsFrame f ∧ HHDM_OFFSET + 0x100000 ≤ f := by
    intro f hf
    obtain ⟨i, hi, rfl⟩ := List.mem_map.mp hf
    rw [List.mem_range] at hi
    refine ⟨⟨?_, ?_, ?_⟩, ?_⟩
    all_goals
      rw [HHDM_OFFSET, PAGE_SIZE]
      omega
  refine ⟨fun f hf => (hmem f hf).1, ?_, fun f hf P _ heq => ?_⟩
  · refine List.nodup_range.map fun i j hij => ?_
    simp only [PAGE_SIZE] at hij
    omega
  · have hlow := (hmem f hf).2
    obtain ⟨-, rfl⟩ | ⟨-, rfl⟩ := bootMem_walk heq
    · exact absurd hlow (by decide)
    · exact absurd hlow (by decide)

/-! ### With frames enough, nothing faults -/

section

variable (s : PageMem)

theorem enter_some (t i flags : ℕ) (h : 1 ≤ s.pool.length) :
    ∃ t' s', s.enter t i flags = some (t', s') ∧ s.pool.length ≤ s'.pool.length + 1 := by
  rw [PageMem.enter]
  cases nextTable (s.entry t i) with
  | some u => exact ⟨u, s, rfl, Nat.le_succ _⟩
  | none =>
    rw [pgtableAllocTable]
    cases hpool : s.pool with
    | nil =>
      rw [hpool] at h
      exact absurd h (by decide)
    | cons f rest => exact ⟨f, _, rfl, le_rfl⟩

theorem pgtableMap_some (root vaddr paddr flags : ℕ) (h : 3 ≤ s.pool.length) :
    ∃ s', s.pgtableMap root vaddr paddr flags = some s' ∧ s.pool.length ≤ s'.pool.length + 3 := by
  rw [PageMem.pgtableMap]
  obtain ⟨pdpt, s₁, h₁, hlen₁⟩ := enter_some s root (tableIndex (vaddr / PAGE_SIZE * PAGE_SIZE) 39) flags (by omega)
  obtain ⟨pd, s₂, h₂, hlen₂⟩ := enter_some s₁ pdpt (tableIndex (vaddr / PAGE_SIZE * PAGE_SIZE) 30) flags (by omega)
  obtain ⟨pt, s₃, h₃, hlen₃⟩ := enter_some s₂ pd (tableIndex (vaddr / PAGE_SIZE * PAGE_SIZE) 21) flags (by omega)
  simp only [h₁, h₂, h₃]
  refine ⟨_, rfl, ?_⟩
  show s.pool.length ≤ s₃.pool.length + 3
  omega

theorem vmmAlloc_some (root vaddr flags : ℕ) (h : 4 ≤ s.pool.length) :
    ∃ f s', s.vmmAlloc root vaddr flags = some (f, s') ∧ s.pool.length ≤ s'.pool.length + 4 := by
  rw [PageMem.vmmAlloc]
  cases hpool : s.pool with
  | nil =>
    rw [hpool] at h
    exact absurd h (by decide)
  | cons f rest =>
    rw [hpool, List.length_cons] at h
    obtain ⟨s', hmap, hlen⟩ := pgtableMap_some { s with pool := rest } root vaddr
      ((f + 2 ^ 64 - HHDM_OFFSET) % 2 ^ 64) flags (by show 3 ≤ rest.length; omega)
    have hlen : rest.length ≤ s'.pool.length + 3 := hlen
    refine ⟨f, s', ?_, ?_⟩
    · show (pgtableMap { s with pool := rest } root vaddr ((f + 2 ^ 64 - HHDM_OFFSET) % 2 ^ 64) flags).map _ = _
      rw [hmap]
      rfl
    · rw [List.length_cons]
      omega

theorem mapStack_some (root : ℕ) (is : List ℕ) (h : 4 * is.length ≤ s.pool.length) :
    ∃ s', mapStack root is s = some s' ∧ s.pool.length ≤ s'.pool.length + 4 * is.length := by
  induction is generalizing s with
  | nil => exact ⟨s, rfl, Nat.le_add_right _ _⟩
  | cons i is ih =>
    rw [List.length_cons] at h
    obtain ⟨f, s₁, halloc, hlen⟩ := vmmAlloc_some s root (USER_STACK_BASE + i * PAGE_SIZE) userFlags (by omega)
    have hclear : (clearFrame s₁ f).pool.length = s₁.pool.length := rfl
    obtain ⟨s', hmap, hlen'⟩ := ih (clearFrame s₁ f) (by omega)
    refine ⟨s', by rw [mapStack, halloc]; exact hmap, ?_⟩
    rw [List.length_cons]
    omega

/-- A task's address space on this kernel. -/
theorem bootMem_taskSpace : ∃ pml4 s, taskSpace bootPml4 bootMem = some (pml4, s) ∧ 4 ≤ s.pool.length := by
  obtain ⟨s₁, hcreate, hlen₁⟩ : ∃ s₁, bootMem.pgtableCreate bootPml4 = some (HHDM_OFFSET + 0x100000, s₁) ∧
      s₁.pool.length = 299 := ⟨_, rfl, by decide +kernel⟩
  have hrange : (List.range USER_STACK_PAGES).length = 64 := List.length_range
  obtain ⟨s, hstack, hlen⟩ := mapStack_some s₁ (HHDM_OFFSET + 0x100000) (List.range USER_STACK_PAGES) (by omega)
  refine ⟨HHDM_OFFSET + 0x100000, s, ?_, by omega⟩
  rw [taskSpace, hcreate]
  show (mapStack _ _ s₁).map _ = _
  rw [hstack]
  rfl

/-- The header of the one segment. -/
def tinyPhdr (vaddr : ℕ) : Phdr := ⟨PT_LOAD, PAGE_SIZE, vaddr, 1, 1⟩

/-- The page is mapped before the loader finds that the file does not have its byte. -/
theorem loadElf_tiny (pml4 vaddr : ℕ) (hheaders : programHeaders (tinyImage vaddr) = some (vaddr, [tinyPhdr vaddr]))
    (hcontent : (tinyPhdr vaddr).content (tinyImage vaddr) 0 = (false, [])) (haligned : vaddr % PAGE_SIZE = 0)
    (hfits : vaddr < 2 ^ 64) (h : 4 ≤ s.pool.length) :
    ∃ frame s₁, s.vmmAlloc pml4 vaddr userFlags = some (frame, s₁) ∧
      loadElf (tinyImage vaddr) pml4 0 userStackTop [[0x61]] s =
        some ⟨-1, vaddr, userStackTop, [vaddr], pokeBytes (clearFrame s₁ frame) frame []⟩ := by
  obtain ⟨frame, s₁, halloc, -⟩ := vmmAlloc_some s pml4 vaddr userFlags h
  refine ⟨frame, s₁, halloc, ?_⟩
  have hpage : ((tinyPhdr vaddr).p_vaddr + 0) % 2 ^ 64 = vaddr := Nat.mod_eq_of_lt hfits
  have hpages : loadPages (tinyImage vaddr) pml4 (tinyPhdr vaddr) (s.pool.length + 1) 0 s =
      some (false, [vaddr], pokeBytes (clearFrame s₁ frame) frame []) := by
    rw [loadPages, if_pos (show 0 < (tinyPhdr vaddr).p_memsz from Nat.one_pos), hpage, halloc]
    simp only [hcontent, if_true]
  have hskip : ¬((tinyPhdr vaddr).p_type ≠ PT_LOAD ∨ (tinyPhdr vaddr).p_memsz = 0) := by
    rintro (h | h)
    · exact h rfl
    · exact absurd h Nat.one_ne_zero
  have hok : ¬(tinyPhdr vaddr).p_vaddr % PAGE_SIZE ≠ 0 := not_not.mpr haligned
  rw [loadElf, hheaders]
  simp only []
  rw [loadSegments, if_neg hskip, if_neg hok, hpages]

end

theorem loadElf_kernel_iff_userPage : ∃ pml4 s r, taskSpace bootPml4 bootMem = some (pml4, s) ∧
    loadElf (tinyImage 0x400000) pml4 0 userStackTop [[0x61]] s = some r ∧
    (((∀ v, KERNEL_PML4_INDEX ≤ tableIndex v 39 → r.mem.pgtableKva pml4 v = s.pgtableKva pml4 v) ∧
      ∀ v ∈ r.pages, tableIndex v 39 < KERNEL_PML4_INDEX) ↔ UserImage (tinyImage 0x400000)) := by
  obtain ⟨pml4, s, hspace, hlen⟩ := bootMem_taskSpace
  obtain ⟨frame, s₁, -, hload⟩ := loadElf_tiny s pml4 0x400000 (by decide) (by decide) (by decide)
    (by decide) hlen
  exact ⟨pml4, s, _, hspace, hload, loadElf_kernel_iff bootMem_freshPool hspace (by decide) hload⟩

/-- On this kernel all tables of a new task are a tree, those of the kernel half too, and none of them translates an
address of the kernel half. -/
theorem bootMem_loadOk {pml4 : ℕ} {s : PageMem} (hspace : taskSpace bootPml4 bootMem = some (pml4, s)) :
    LoadOk TablePath s pml4 ∧ ∀ v, ¬UserAddr v → s.leafOf pml4 v = 0 := by
  obtain ⟨s₁, hcreate, hstack⟩ := taskSpace_cases hspace
  obtain ⟨hpool, -, -⟩ := pgtableCreate_spec bootMem_freshPool hcreate
  have htree := TreeOk.create bootMem_freshPool hcreate
  have hpath : ∀ i P t, TablePath (i :: P) → walk nextTable s₁.entry (i :: P) pml4 = some t →
      i :: P = [KERNEL_PML4_INDEX] ∧ t = HHDM_OFFSET + 0x2000 := by
    intro i P t hP ht
    rw [pgtableCreate_walk bootMem_freshPool hcreate hP] at ht
    split at ht
    · obtain ⟨hnil, -⟩ | hsecond := bootMem_walk ht
      · exact absurd hnil (List.cons_ne_nil _ _)
      · exact hsecond
    · cases ht
  have hroot : pml4 ≠ HHDM_OFFSET + 0x2000 := by
    intro heq
    have hmem : pml4 ∈ bootMem.pool := by
      rw [hpool]
      exact List.mem_cons_self
    refine bootMem_freshPool.fresh pml4 hmem [KERNEL_PML4_INDEX] ⟨List.mem_range.mpr (by decide), trivial⟩ ?_
    rw [heq]
    decide
  have hleaf : ∀ v, s₁.leafOf pml4 v = 0 := by
    intro v
    rw [leafOf, cellAt]
    cases hu : walk nextTable s₁.entry (tablePath v) pml4 with
    | none => rfl
    | some u =>
      have hlen := congrArg List.length (hpath _ _ u (tablePath_tablePath v) hu).1
      exact absurd hlen (show ¬3 = 1 by decide)
  have hok : LoadOk TablePath s₁ pml4 := by
    refine ⟨Follows.closed _ 3, fun _ h => h, ⟨fun P Q t hP hQ hPt hQt => ?_, htree.frames, htree.nodup, htree.fresh⟩,
      fun v _ hp => ?_⟩
    · cases P with
      | nil =>
        cases Q with
        | nil => rfl
        | cons j Q =>
          rw [(hpath j Q t hQ hQt).2] at hPt
          exact absurd (Option.some.inj hPt) hroot
      | cons i P =>
        cases Q with
        | nil =>
          rw [(hpath i P t hP hPt).2] at hQt
          exact absurd (Option.some.inj hQt) hroot
        | cons j Q => rw [(hpath i P t hP hPt).1, (hpath j Q t hQ hQt).1]
    · rw [hleaf v] at hp
      exact absurd hp (by decide)
  obtain ⟨hok', hkernel⟩ := hok.mapStack (fun _ h => h.tablePath) (fun i hi => List.mem_range.mp hi) hstack
  exact ⟨hok', fun v hv => (hkernel v hv).trans (hleaf v)⟩

/-- An image whose one page is in the direct map: the page is there from then on, though the image is refused. -/
theorem loadElf_kernel_changed : ∃ pml4 s r, bootMem.FreshPool bootPml4 ∧
    taskSpace bootPml4 bootMem = some (pml4, s) ∧
    loadElf (tinyImage (HHDM_OFFSET + 2 ^ 38)) pml4 0 userStackTop [[0x61]] s = some r ∧
    KERNEL_PML4_INDEX ≤ tableIndex (HHDM_OFFSET + 2 ^ 38) 39 ∧ HHDM_OFFSET + 2 ^ 38 ∈ r.pages ∧
    s.pgtableKva pml4 (HHDM_OFFSET + 2 ^ 38) = none ∧ r.mem.pgtableKva pml4 (HHDM_OFFSET + 2 ^ 38) ≠ none := by
  obtain ⟨pml4, s, hspace, hlen⟩ := bootMem_taskSpace
  obtain ⟨hok, hkernel⟩ := bootMem_loadOk hspace
  obtain ⟨frame, s₁, halloc, hload⟩ := loadElf_tiny s pml4 (HHDM_OFFSET + 2 ^ 38) (by decide)
    (by decide) (by decide) (by decide) hlen
  have hempty : ([] : List UInt8).length ≤ PAGE_SIZE := Nat.zero_le _
  obtain ⟨-, hpresent, -⟩ := hok.fill (tablePath_tablePath _) hempty halloc
  refine ⟨pml4, s, _, bootMem_freshPool, hspace, hload, by decide, List.mem_singleton_self _, ?_, ?_⟩
  · rw [pgtableKva_eq, hkernel _ (by rw [UserAddr]; decide)]
    exact kvaOfEntry_zero _
  · rw [pgtableKva_eq, kvaOfEntry, if_pos hpresent]
    exact Option.some_ne_none _

end LizardOs.Proc
