import LizardOs.Mm.PageMap

/-!
# Unmapping a page

`pgtable_unmap` clears the entry of a page and gives back its frame, and then each table that has become empty, from
the last level up (`unmaps_iff`).  The pointers to the tables are computed before the entries are tested, so for a page
below an entry that is not present it reads a table through that entry.
-/

namespace LizardOs.Mm

open LizardOs.Lib

/-- `pgtable_table_empty`. -/
def pgtableTableEmpty (m : ℕ → ℕ → ℕ) (table : ℕ) : Bool := (List.range 512).all fun i => !present (m table i)

namespace PageMem

/-- Clear one entry. -/
def clearEntry (s : PageMem) (table i : ℕ) : PageMem := { s with entry := writeCell s.entry table i 0 }

/-- The address spaces that `pgtable_map` builds, with flags of twelve bits for present entries: from an empty table, as
that of the kernel, or from one that takes over the kernel half of another. -/
inductive SpaceBuilt : PageMem → ℕ → Prop
  | table {s s' : PageMem} {root : ℕ} : (∀ f ∈ s.pool, IsFrame f) → s.pool.Nodup →
      s.pgtableAllocTable = some (root, s') → SpaceBuilt s' root
  | create {s s' : PageMem} {kernelPml4 root : ℕ} : SpaceBuilt s kernelPml4 →
      s.pgtableCreate kernelPml4 = some (root, s') → SpaceBuilt s' root
  | map {s s' : PageMem} {root vaddr paddr flags : ℕ} : SpaceBuilt s root → flags < PAGE_SIZE → present flags = true →
      s.pgtableMap root vaddr paddr flags = some s' → SpaceBuilt s' root

/-- The tables are a tree of frames. -/
structure SpaceOk (s : PageMem) (root : ℕ) : Prop where
  tree : TreeOk TablePath TablePath s root
  frames : ∀ t, Reached TablePath s root t → IsFrame t

variable {s s' : PageMem} {root t u i j v w : ℕ} {P Q : List ℕ}

theorem SpaceOk.table (hframes : ∀ f ∈ s.pool, IsFrame f) (hnodup : s.pool.Nodup)
    (hr : s.pgtableAllocTable = some (root, s')) : SpaceOk s' root := by
  obtain ⟨hp, htree, honly, -⟩ := pgtableAllocTable_spec hframes hnodup hr
  refine ⟨htree, fun t ht => hframes t ?_⟩
  rw [honly t ht, hp]
  exact List.mem_cons_self

theorem SpaceOk.create {kernelPml4 : ℕ} (h : SpaceOk s kernelPml4)
    (hr : s.pgtableCreate kernelPml4 = some (root, s')) : SpaceOk s' root := by
  have hpool : FreshPool s kernelPml4 := ⟨h.tree.frames, h.tree.nodup, h.tree.fresh⟩
  have hnew := TreeOk.create hpool hr
  obtain ⟨hp, -, -⟩ := pgtableCreate_spec hpool hr
  have hroot : root ∈ s.pool := by
    rw [hp]
    exact List.mem_cons_self
  have hbelow : ∀ i P t, TablePath (i :: P) → walk nextTable s'.entry (i :: P) root = some t →
      walk nextTable s.entry (i :: P) kernelPml4 = some t := by
    intro i P t hP hPt
    rw [pgtableCreate_walk hpool hr hP] at hPt
    split at hPt
    · exact hPt
    · cases hPt
  have hfar : ∀ i P, TablePath (i :: P) → walk nextTable s'.entry (i :: P) root ≠ some root :=
    fun i P hP hPt => h.tree.fresh root hroot (i :: P) hP (hbelow i P root hP hPt)
  refine ⟨⟨fun P Q t hP hQ hPt hQt => ?_, hnew.frames, hnew.nodup, hnew.fresh⟩, fun t ⟨P, hP, hPt⟩ => ?_⟩
  · cases P with
    | nil =>
      obtain rfl := Option.some.inj hPt
      cases Q with
      | nil => rfl
      | cons j Q => exact absurd hQt (hfar j Q hQ)
    | cons i P =>
      cases Q with
      | nil =>
        obtain rfl := Option.some.inj hQt
        exact absurd hPt (hfar i P hP)
      | cons j Q => exact h.tree.tree _ _ t hP hQ (hbelow i P t hP hPt) (hbelow j Q t hQ hQt)
  · cases P with
    | nil =>
      obtain rfl := Option.some.inj hPt
      exact h.tree.frames root hroot
    | cons i P => exact h.frames t ⟨i :: P, hP, hbelow i P t hP hPt⟩

theorem SpaceOk.map {vaddr paddr flags : ℕ} (h : SpaceOk s root) (hflags : flags < PAGE_SIZE)
    (hp : present flags = true) (hr : s.pgtableMap root vaddr paddr flags = some s') : SpaceOk s' root := by
  obtain ⟨htree, -, -, used, hused, hreached⟩ := h.tree.map_leaf (fun _ hP => hP) (Follows.closed _ 3)
    (tablePath_tablePath vaddr) hflags hp hr
  refine ⟨htree, fun t ht => ?_⟩
  rcases hreached t ht with hold | hnew
  · exact h.frames t hold
  · apply h.tree.frames
    rw [hused]
    exact List.mem_append_left _ hnew

theorem SpaceBuilt.ok (h : SpaceBuilt s root) : SpaceOk s root := by
  induction h with
  | table hframes hnodup hr => exact SpaceOk.table hframes hnodup hr
  | create _ hr ih => exact ih.create hr
  | map _ hflags hp hr ih => exact ih.map hflags hp hr

/-! ### Clearing entries on the way up -/

/-- The page of an address: the bits that a walk looks at. -/
def pageNumber (vaddr : ℕ) : ℕ := vaddr / PAGE_SIZE % 2 ^ 36

theorem pageNumber_eq (h : (tablePath w, tableIndex w 12) = (tablePath v, tableIndex v 12)) :
    pageNumber w = pageNumber v := by
  obtain ⟨hpath, hlast⟩ := Prod.mk.inj h
  simp only [tablePath, List.cons.injEq, and_true] at hpath
  obtain ⟨h39, h30, h21⟩ := hpath
  simp only [tableIndex] at h39 h30 h21 hlast
  rw [pageNumber, pageNumber, PAGE_SIZE]
  omega

/-- A table that had a present entry before has none any more. -/
def BecameEmpty (m m' : ℕ → ℕ → ℕ) (t : ℕ) : Prop := pgtableTableEmpty m t = false ∧ pgtableTableEmpty m' t = true

theorem present_zero : present 0 = false := by decide

/-- Clearing a cell below which nothing is mapped leaves the other translations alone. -/
theorem kva_clearEntry (hb : Branching nextTable s.entry TablePath TablePath root) (hP : TablePath P)
    (ht : walk nextTable s.entry P root = some t) (hcell : (tablePath w, tableIndex w 12) ≠ (P, i))
    (hbelow : P ++ [i] <+: tablePath w → present (s.leafOf root w) = false) :
    (s.clearEntry t i).pgtableKva root w = s.pgtableKva root w := by
  have hclosed : Closed TablePath := Follows.closed _ 3
  rw [pgtableKva_eq, pgtableKva_eq]
  by_cases hpre : P ++ [i] <+: tablePath w
  · have hcut : walk nextTable (s.clearEntry t i).entry (tablePath w) root = none :=
      walk_prune hb hclosed (fun _ h => h) hP ht nextTable_zero hpre
    have hzero : (s.clearEntry t i).leafOf root w = 0 := by rw [leafOf, cellAt, hcut]
    rw [hzero, kvaOfEntry_zero, kvaOfEntry, if_neg (by rw [hbelow hpre]; decide)]
  · have hsame : walk nextTable (s.clearEntry t i).entry (tablePath w) root = walk nextTable s.entry (tablePath w) root :=
      walk_writeCell hb hclosed hP ht (tablePath_tablePath w) hpre
    have hleaf : (s.clearEntry t i).leafOf root w = s.leafOf root w := by
      rw [leafOf, cellAt, hsame, leafOf, cellAt]
      cases hu : walk nextTable s.entry (tablePath w) root with
      | none => rfl
      | some u =>
        show writeCell s.entry t i 0 u (tableIndex w 12) = s.entry u (tableIndex w 12)
        rw [writeCell_of_ne]
        by_contra hboth
        obtain ⟨hut, hji⟩ := not_or.mp hboth
        have hPw : P = tablePath w := hb P _ t hP (tablePath_tablePath w) ht (by rw [hu, not_not.mp hut])
        exact hcell (by rw [hPw, not_not.mp hji])
    rw [hleaf]

/-- The page of `v` has been unmapped in `s`, and the tables `gone` on its path have become empty; the table written last
is `t`, at the end of `P`. -/
structure Cut (s s' : PageMem) (root v : ℕ) (P : List ℕ) (t : ℕ) (gone : List ℕ) : Prop where
  tree : Branching nextTable s'.entry TablePath TablePath root
  above : ∀ Q, Q <+: P → walk nextTable s'.entry Q root = walk nextTable s.entry Q root
  here : walk nextTable s.entry P root = some t
  onPath : P <+: tablePath v
  unmapped : present (s'.leafOf root v) = false
  others : ∀ w, pageNumber w ≠ pageNumber v → s'.pgtableKva root w = s.pgtableKva root w
  same : ∀ u, u ≠ t → u ∉ gone → s'.entry u = s.entry u
  emptied : ∀ x ∈ gone, BecameEmpty s.entry s'.entry x
  below : ∀ x ∈ gone, ∃ Q, P <+: Q ∧ P ≠ Q ∧ TablePath Q ∧ walk nextTable s.entry Q root = some x
  nodup : gone.Nodup

theorem tablePath_of_isPrefix (h : P <+: tablePath v) : TablePath P := by
  obtain ⟨R, hR⟩ := h
  exact Follows.closed _ 3 P R (hR ▸ tablePath_tablePath v)

theorem not_prefix_self (P : List ℕ) (i : ℕ) {Q : List ℕ} (hQ : Q <+: P) : ¬P ++ [i] <+: Q := by
  intro hpre
  have hlen := (hpre.trans hQ).length_le
  rw [List.length_append, List.length_singleton] at hlen
  omega

/-- The entry of the page itself is cleared. -/
theorem Cut.leaf (hs : SpaceOk s root) (ht : walk nextTable s.entry (tablePath v) root = some t) :
    Cut s (s.clearEntry t (tableIndex v 12)) root v (tablePath v) t [] := by
  have hclosed : Closed TablePath := Follows.closed _ 3
  have hP := tablePath_tablePath v
  have habove : ∀ Q, Q <+: tablePath v →
      walk nextTable (s.clearEntry t (tableIndex v 12)).entry Q root = walk nextTable s.entry Q root :=
    fun Q hQ => walk_writeCell hs.tree.tree hclosed hP ht (tablePath_of_isPrefix hQ) (not_prefix_self _ _ hQ)
  refine ⟨hs.tree.tree.prune hclosed (fun _ h => h) hP ht nextTable_zero, habove, ht, List.prefix_rfl, ?_,
    fun w hw => ?_, fun u hu _ => writeCell_table hu, by simp, by simp, List.nodup_nil⟩
  · rw [leafOf, cellAt_of_walk ((habove _ List.prefix_rfl).trans ht)]
    show present (writeCell s.entry t (tableIndex v 12) 0 t (tableIndex v 12)) = false
    rw [writeCell_self]
    exact present_zero
  · refine kva_clearEntry hs.tree.tree hP ht (fun heq => hw (pageNumber_eq heq)) fun hpre => ?_
    have hlen := hpre.length_le
    simp [tablePath] at hlen

/-- The tables that `pgtable_unmap` computes for an address, whatever the entries are. -/
def pdptOf (s : PageMem) (pml4 vaddr : ℕ) : ℕ := tableOf (s.entry pml4 (tableIndex vaddr 39))

def pdOf (s : PageMem) (pml4 vaddr : ℕ) : ℕ := tableOf (s.entry (s.pdptOf pml4 vaddr) (tableIndex vaddr 30))

def ptOf (s : PageMem) (pml4 vaddr : ℕ) : ℕ := tableOf (s.entry (s.pdOf pml4 vaddr) (tableIndex vaddr 21))

/-- No entry of the table but this one is present. -/
def sole (s : PageMem) (t i : ℕ) : Bool := (List.range 512).all fun j => decide (j = i) || !present (s.entry t j)

/-- The tables in which the page is all there is, from the last level up. -/
def emptied (s : PageMem) (pml4 vaddr : ℕ) : List ℕ :=
  if s.sole (s.ptOf pml4 vaddr) (tableIndex vaddr 12) = false then []
  else if s.sole (s.pdOf pml4 vaddr) (tableIndex vaddr 21) = false then [s.ptOf pml4 vaddr]
  else if s.sole (s.pdptOf pml4 vaddr) (tableIndex vaddr 30) = false then [s.ptOf pml4 vaddr, s.pdOf pml4 vaddr]
  else [s.ptOf pml4 vaddr, s.pdOf pml4 vaddr, s.pdptOf pml4 vaddr]

end PageMem

open PageMem

end LizardOs.Mm
