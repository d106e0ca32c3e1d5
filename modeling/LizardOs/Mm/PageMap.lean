import LizardOs.Lib.Steps
import LizardOs.Mm.PageTable

/-!
# Page tables as a partial map

The tables of an address space are a tree: no two paths of indices lead to the same table, and the frames still to
be handed out are in it nowhere.  One level of `pgtable_map` hangs a fresh table into an empty cell at most, so it
changes the cell it enters and no other; and the last write changes one cell of a last-level table.  From this,
`pgtable_map` sets the translation of its own page and leaves all others alone.
-/

namespace LizardOs.Mm

open LizardOs.Lib

namespace PageMem

/-- The entry behind a path of indices, 0 where the path leads nowhere. -/
def cellAt (s : PageMem) (root : ℕ) (P : List ℕ) (i : ℕ) : ℕ :=
  match walk nextTable s.entry P root with
  | none => 0
  | some t => s.entry t i

/-- The paths of `own` are a tree among those of `ok`, and no frame of the pool is reached. -/
structure TreeOk (own ok : List ℕ → Prop) (s : PageMem) (root : ℕ) : Prop where
  tree : Branching nextTable s.entry own ok root
  frames : ∀ f ∈ s.pool, IsFrame f
  nodup : s.pool.Nodup
  fresh : ∀ f ∈ s.pool, ∀ P, ok P → walk nextTable s.entry P root ≠ some f

variable {own ok : List ℕ → Prop} {s s' : PageMem} {root t t' i j flags : ℕ} {P Q : List ℕ}

theorem cellAt_of_walk (h : walk nextTable s.entry P root = some t) (i : ℕ) : s.cellAt root P i = s.entry t i := by
  rw [cellAt, h]

/-- A path of the set leads to the table. -/
def Reached (own : List ℕ → Prop) (s : PageMem) (root t : ℕ) : Prop :=
  ∃ P, own P ∧ walk nextTable s.entry P root = some t

/-- What one call changes: a list of cells, each given by a path and an index, where entries with the given flags
are written; and the frames it takes are the tables that are reached from then on. -/
structure Changes (own ok : List ℕ → Prop) (flags : ℕ) (s s' : PageMem) (root : ℕ) (cells : List (List ℕ × ℕ)) :
    Prop where
  cell : ∀ Q j, ok Q → (Q, j) ∉ cells → s'.cellAt root Q j = s.cellAt root Q j
  entries : ∀ Q j, ok Q → s'.cellAt root Q j = s.cellAt root Q j ∨
    ∃ a, a % PAGE_SIZE = 0 ∧ s'.cellAt root Q j = a ||| flags
  used : ∃ used, s.pool = used ++ s'.pool ∧ (∀ t, Reached own s' root t ↔ Reached own s root t ∨ t ∈ used) ∧
    ∀ t, Reached ok s' root t ↔ Reached ok s root t ∨ t ∈ used

theorem Changes.trans {s'' : PageMem} {c c' : List (List ℕ × ℕ)} (h : Changes own ok flags s s' root c)
    (h' : Changes own ok flags s' s'' root c') : Changes own ok flags s s'' root (c ++ c') := by
  refine ⟨fun Q j hQ hnot => ?_, fun Q j hQ => ?_, ?_⟩
  · rw [List.mem_append, not_or] at hnot
    rw [h'.cell Q j hQ hnot.2, h.cell Q j hQ hnot.1]
  · obtain hsame | hnew := h'.entries Q j hQ
    · rw [hsame]
      exact h.entries Q j hQ
    · exact .inr hnew
  · obtain ⟨used, hused, hown, hok⟩ := h.used
    obtain ⟨used', hused', hown', hok'⟩ := h'.used
    refine ⟨used ++ used', by rw [hused, hused', List.append_assoc], fun t => ?_, fun t => ?_⟩
    · rw [hown' t, hown t, List.mem_append, or_assoc]
    · rw [hok' t, hok t, List.mem_append, or_assoc]

/-- One more path leads somewhere: to one more table. -/
theorem reached_of_grow {f : ℕ} {A : List ℕ → Prop} (hself : walk nextTable s'.entry P root = some f)
    (hothers : ∀ Q, A Q → Q ≠ P → walk nextTable s'.entry Q root = walk nextTable s.entry Q root)
    (hbefore : walk nextTable s.entry P root = none) (hP : A P) (u : ℕ) :
    Reached A s' root u ↔ Reached A s root u ∨ u = f := by
  constructor
  · intro ⟨Q, hQ, hu⟩
    by_cases hQP : Q = P
    · rw [hQP] at hu
      exact .inr (Option.some.inj (hu.symm.trans hself))
    · exact .inl ⟨Q, hQ, (hothers Q hQ hQP).symm.trans hu⟩
  · rintro (⟨Q, hQ, hu⟩ | rfl)
    · have hQP : Q ≠ P := by
        rintro rfl
        exact absurd (hbefore.symm.trans hu) nofun
      exact ⟨Q, hQ, (hothers Q hQ hQP).trans hu⟩
    · exact ⟨P, hP, hself⟩

/-- Take the frame that is handed out next: no path leads to it, and the frames behind it are others. -/
theorem TreeOk.take {f : ℕ} {pool : List ℕ} (ht : TreeOk own ok s root) (hpool : s.pool = f :: pool) :
    TreeOk own ok { s with pool := pool } root ∧ IsFrame f ∧ f ∉ pool ∧
      ∀ P, ok P → walk nextTable s.entry P root ≠ some f := by
  have hf : f ∈ s.pool := by
    rw [hpool]
    exact List.mem_cons_self
  have hmem : ∀ g ∈ pool, g ∈ s.pool := by
    intro g hg
    rw [hpool]
    exact List.mem_cons_of_mem _ hg
  have hnodup := ht.nodup
  rw [hpool, List.nodup_cons] at hnodup
  exact ⟨⟨ht.tree, fun g hg => ht.frames g (hmem g hg), hnodup.2, fun g hg => ht.fresh g (hmem g hg)⟩,
    ht.frames f hf, hnodup.1, ht.fresh f hf⟩

/-- Clear the frame that is handed out next: no path leads to it. -/
theorem TreeOk.clear {f : ℕ} {pool : List ℕ} (ht : TreeOk own ok s root) (hclosed : Closed ok)
    (hsub : ∀ P, own P → ok P) (hpool : s.pool = f :: pool) :
    TreeOk own ok ⟨Function.update s.entry f fun _ => 0, pool⟩ root ∧
      ∀ Q, ok Q → walk nextTable (Function.update s.entry f fun _ => 0) Q root = walk nextTable s.entry Q root := by
  obtain ⟨htake, -, -, hfresh⟩ := ht.take hpool
  have hsame : ∀ Q, ok Q →
      walk nextTable (Function.update s.entry f fun _ => 0) Q root = walk nextTable s.entry Q root :=
    fun Q hQ => walk_of_fresh hclosed hfresh (fun u hu => Function.update_of_ne hu ..) hQ
  refine ⟨⟨ht.tree.congr hsub hsame, htake.frames, htake.nodup, fun g hg Q hQ => ?_⟩, hsame⟩
  show walk nextTable (Function.update s.entry f fun _ => 0) Q root ≠ some g
  rw [hsame Q hQ]
  exact htake.fresh g hg Q hQ

/-- A write to the cell `i` of the table of `P` leaves the other cells, of tables that the same paths lead to. -/
theorem TreeOk.cellAt_writeCell {Q : List ℕ} {j : ℕ} (ht : TreeOk own ok s root) (hP : own P) (hQ : ok Q)
    (hwalk : walk nextTable s.entry P root = some t) (e : ℕ)
    (hsame : walk nextTable (writeCell s.entry t i e) Q root = walk nextTable s.entry Q root)
    (hnot : (Q, j) ≠ (P, i)) : cellAt { s with entry := writeCell s.entry t i e } root Q j = s.cellAt root Q j := by
  show (match walk nextTable (writeCell s.entry t i e) Q root with
    | none => 0
    | some u => writeCell s.entry t i e u j) = s.cellAt root Q j
  rw [hsame, cellAt]
  cases hu : walk nextTable s.entry Q root with
  | none => rfl
  | some u =>
    show writeCell s.entry t i e u j = s.entry u j
    rw [writeCell_of_ne]
    by_contra hboth
    obtain ⟨hut, hji⟩ := not_or.mp hboth
    have hPQ : P = Q := ht.tree P Q t hP hQ hwalk (by rw [hu, not_not.mp hut])
    apply hnot
    rw [hPQ, not_not.mp hji]

/-- Hang a frame that no path leads to into an empty cell. -/
theorem TreeOk.hang {e f : ℕ} (ht : TreeOk own ok s root) (hclosed : Closed ok) (hsub : ∀ P, own P → ok P) (hP : own P)
    (hwalk : walk nextTable s.entry P root = some t) (hnone : nextTable (s.entry t i) = none)
    (he : nextTable e = some f) (hf : f ∉ s.pool) (hfresh : ∀ Q, ok Q → walk nextTable s.entry Q root ≠ some f)
    (hempty : ∀ j, ok (P ++ [i] ++ [j]) → nextTable (s.entry f j) = none) :
    TreeOk own ok { s with entry := writeCell s.entry t i e } root ∧
      walk nextTable (writeCell s.entry t i e) (P ++ [i]) root = some f ∧
      cellAt { s with entry := writeCell s.entry t i e } root P i = e ∧
      (∀ Q j, ok Q → Q ≠ P ++ [i] → (Q, j) ≠ (P, i) →
        cellAt { s with entry := writeCell s.entry t i e } root Q j = s.cellAt root Q j) ∧
      ∀ Q, ok Q → Q ≠ P ++ [i] →
        walk nextTable (writeCell s.entry t i e) Q root = walk nextTable s.entry Q root := by
  have hft : f ≠ t := fun heq => hfresh P (hsub P hP) (by rw [hwalk, heq])
  obtain ⟨hself, hothers⟩ := walk_grow ht.tree hclosed hsub hP hwalk hnone he hft hempty
  have hPne : P ≠ P ++ [i] := by
    intro heq
    have hlen := congrArg List.length heq
    rw [List.length_append, List.length_singleton] at hlen
    omega
  refine ⟨⟨ht.tree.grow hclosed hsub hP hwalk hnone he hfresh hempty, ht.frames, ht.nodup, fun g hg Q hQ => ?_⟩,
    hself, ?_, fun Q j hQ hQP hnot => ?_, hothers⟩
  · show walk nextTable (writeCell s.entry t i e) Q root ≠ some g
    by_cases hQP : Q = P ++ [i]
    · rw [hQP, hself]
      intro heq
      rw [Option.some.inj heq] at hf
      exact hf hg
    · rw [hothers Q hQ hQP]
      exact ht.fresh g hg Q hQ
  · rw [cellAt_of_walk (t := t) (by rw [← hwalk]; exact hothers P (hsub P hP) hPne)]
    exact writeCell_self ..
  · exact ht.cellAt_writeCell hP hQ hwalk e (hothers Q hQ hQP) hnot

/-- **One level of `pgtable_map`** leads to the table behind the cell, and changes that cell at most. -/
theorem TreeOk.enter (ht : TreeOk own ok s root) (hclosed : Closed ok) (hsub : ∀ P, own P → ok P) (hP : own P)
    (hPi : own (P ++ [i])) (hwalk : walk nextTable s.entry P root = some t) (hflags : flags < PAGE_SIZE)
    (hp : present flags = true) (hr : s.enter t i flags = some (t', s')) :
    TreeOk own ok s' root ∧ Changes own ok flags s s' root [(P, i)] ∧
      walk nextTable s'.entry (P ++ [i]) root = some t' := by
  rw [PageMem.enter] at hr
  cases hnext : nextTable (s.entry t i) with
  | some u =>
    rw [hnext] at hr
    obtain ⟨rfl, rfl⟩ := Prod.mk.inj (Option.some.inj hr)
    refine ⟨ht, ⟨fun _ _ _ _ => rfl, fun _ _ _ => .inl rfl, [], rfl, fun t => by simp, fun t => by simp⟩, ?_⟩
    rw [walk_concat, hwalk]
    exact hnext
  | none =>
    rw [hnext] at hr
    cases hpool : s.pool with
    | nil =>
      rw [pgtableAllocTable, hpool] at hr
      cases hr
    | cons f pool =>
      rw [pgtableAllocTable, hpool] at hr
      obtain ⟨rfl, rfl⟩ := Prod.mk.inj (Option.some.inj hr)
      have hf : f ∈ s.pool := by
        rw [hpool]
        exact List.mem_cons_self
      have hnodup := ht.nodup
      rw [hpool, List.nodup_cons] at hnodup
      have hft : f ≠ t := fun heq => ht.fresh f hf P (hsub P hP) (by rw [hwalk, heq])
      obtain ⟨hclear, hsame⟩ := ht.clear hclosed hsub hpool
      set m := Function.update s.entry f fun _ => 0 with hm
      have hmother : ∀ u, u ≠ f → m u = s.entry u := fun u hu => Function.update_of_ne hu ..
      have hmself : m f = fun _ => 0 := Function.update_self ..
      have hcell : ∀ Q j, ok Q → cellAt ⟨m, pool⟩ root Q j = s.cellAt root Q j := by
        intro Q j hQ
        rw [cellAt, cellAt, hsame Q hQ]
        cases hu : walk nextTable s.entry Q root with
        | none => rfl
        | some u => exact congrFun (hmother u fun heq => ht.fresh f hf Q hQ (by rw [hu, heq])) j
      obtain ⟨htree, hself, hat, hothers, hwalks⟩ := hclear.hang hclosed hsub hP (by rw [← hwalk, ← hsame P (hsub P hP)])
        (by rw [← hnext]; exact congrArg nextTable (congrFun (hmother t (Ne.symm hft)) i))
        ((ht.frames f hf).nextTable_entry hflags hp) hnodup.1 (fun Q hQ => by rw [hsame Q hQ]; exact ht.fresh f hf Q hQ)
        (fun j _ => by
          show nextTable (m f j) = none
          rw [hmself]
          exact nextTable_zero)
      set s' : PageMem := ⟨writeCell m t i ((f + 2 ^ 64 - HHDM_OFFSET) % 2 ^ 64 ||| flags), pool⟩ with hs'
      -- the new table is empty, and so was the place where it hangs
      have hbefore : walk nextTable s.entry (P ++ [i]) root = none := by
        rw [walk_concat, hwalk]
        exact hnext
      have hsub' : ∀ j, s'.cellAt root (P ++ [i]) j = s.cellAt root (P ++ [i]) j := by
        intro j
        rw [cellAt_of_walk hself, cellAt, hbefore]
        show writeCell m t i _ f j = 0
        rw [writeCell_table hft, hmself]
      have hcells : ∀ Q j, ok Q → (Q, j) ∉ [(P, i)] → s'.cellAt root Q j = s.cellAt root Q j := by
        intro Q j hQ hnot
        by_cases hQP : Q = P ++ [i]
        · rw [hQP]
          exact hsub' j
        · exact (hothers Q j hQ hQP fun heq => hnot (by rw [heq]; exact List.mem_singleton_self _)).trans (hcell Q j hQ)
      have hwalks' : ∀ Q, ok Q → Q ≠ P ++ [i] →
          walk nextTable s'.entry Q root = walk nextTable s.entry Q root :=
        fun Q hQ hQP => (hwalks Q hQ hQP).trans (hsame Q hQ)
      refine ⟨htree, ⟨hcells, fun Q j hQ => ?_, [f], hpool, fun u => ?_, fun u => ?_⟩, hself⟩
      · by_cases hQj : (Q, j) = (P, i)
        · obtain ⟨rfl, rfl⟩ := Prod.mk.inj hQj
          exact .inr ⟨_, (ht.frames f hf).paddr.1, hat⟩
        · exact .inl (hcells Q j hQ fun hmem => hQj (List.mem_singleton.mp hmem))
      · rw [List.mem_singleton]
        exact reached_of_grow hself (fun Q hQ => hwalks' Q (hsub Q hQ)) hbefore hPi u
      · rw [List.mem_singleton]
        exact reached_of_grow hself hwalks' hbefore (hsub _ hPi) u

/-- **The last write of `pgtable_map`** changes its own cell only, where the paths of the tree end above it. -/
theorem TreeOk.leaf (ht : TreeOk own ok s root) (hclosed : Closed ok) (hsub : ∀ P, own P → ok P) (hP : own P)
    (hwalk : walk nextTable s.entry P root = some t) (hend : ¬ok (P ++ [i])) (e : ℕ) :
    TreeOk own ok { s with entry := writeCell s.entry t i e } root ∧
      (∀ Q j, ok Q → (Q, j) ≠ (P, i) →
        cellAt { s with entry := writeCell s.entry t i e } root Q j = s.cellAt root Q j) ∧
      cellAt { s with entry := writeCell s.entry t i e } root P i = e ∧
      ∀ Q, ok Q → walk nextTable (writeCell s.entry t i e) Q root = walk nextTable s.entry Q root := by
  have hsame : ∀ Q, ok Q → walk nextTable (writeCell s.entry t i e) Q root = walk nextTable s.entry Q root := by
    intro Q hQ
    apply walk_writeCell ht.tree hclosed hP hwalk hQ
    intro ⟨R, hR⟩
    apply hend
    apply hclosed (P ++ [i]) R
    rw [hR]
    exact hQ
  refine ⟨⟨ht.tree.congr hsub hsame, ht.frames, ht.nodup, fun f hf Q hQ => ?_⟩, fun Q j hQ hnot => ?_, ?_,
    hsame⟩
  · show walk nextTable (writeCell s.entry t i e) Q root ≠ some f
    rw [hsame Q hQ]
    exact ht.fresh f hf Q hQ
  · exact ht.cellAt_writeCell hP hQ hwalk e (hsame Q hQ) hnot
  · rw [cellAt_of_walk (t := t) (by rw [← hwalk]; exact hsame P (hsub P hP))]
    exact writeCell_self ..

/-! ### The walk for an address -/

/-- The indices that lead to the last table of an address. -/
def tablePath (vaddr : ℕ) : List ℕ := [tableIndex vaddr 39, tableIndex vaddr 30, tableIndex vaddr 21]

/-- The entry that translates an address. -/
def leafOf (s : PageMem) (root vaddr : ℕ) : ℕ := s.cellAt root (tablePath vaddr) (tableIndex vaddr 12)

/-- The cells that `pgtable_map` passes for an address. -/
def pathCells (vaddr : ℕ) : List (List ℕ × ℕ) :=
  [([], tableIndex vaddr 39), ([tableIndex vaddr 39], tableIndex vaddr 30),
    ([tableIndex vaddr 39, tableIndex vaddr 30], tableIndex vaddr 21)]

/-- The index of a page is that of its first address. -/
theorem tableIndex_page (vaddr : ℕ) :
    tableIndex (vaddr / PAGE_SIZE * PAGE_SIZE) 39 = tableIndex vaddr 39 ∧
      tableIndex (vaddr / PAGE_SIZE * PAGE_SIZE) 30 = tableIndex vaddr 30 ∧
      tableIndex (vaddr / PAGE_SIZE * PAGE_SIZE) 21 = tableIndex vaddr 21 ∧
      tableIndex (vaddr / PAGE_SIZE * PAGE_SIZE) 12 = tableIndex vaddr 12 := by
  simp only [tableIndex, PAGE_SIZE]
  omega

/-- Two addresses of a page are translated by one entry. -/
theorem leafOf_page {v w : ℕ} (s : PageMem) (root : ℕ) (h : v / PAGE_SIZE = w / PAGE_SIZE) :
    s.leafOf root v = s.leafOf root w := by
  obtain ⟨a39, a30, a21, a12⟩ := tableIndex_page v
  obtain ⟨b39, b30, b21, b12⟩ := tableIndex_page w
  rw [h] at a39 a30 a21 a12
  rw [leafOf, leafOf, tablePath, tablePath, ← a39, ← a30, ← a21, ← a12, b39, b30, b21, b12]

/-- Two addresses that share the cell at the end of their paths are translated alike. -/
theorem leafOf_cell {v w : ℕ} (s : PageMem) (root : ℕ)
    (h : (tablePath w, tableIndex w 12) = (tablePath v, tableIndex v 12)) : s.leafOf root w = s.leafOf root v := by
  obtain ⟨hpath, hlast⟩ := Prod.mk.inj h
  rw [leafOf, leafOf, hpath, hlast]

/-- The address in the direct map that an entry gives. -/
def kvaOfEntry (e vaddr : ℕ) : Option ℕ :=
  if present e = true then some ((frameOf e + HHDM_OFFSET + vaddr % PAGE_SIZE) % 2 ^ 64) else none

theorem kvaOfEntry_zero (vaddr : ℕ) : kvaOfEntry 0 vaddr = none := if_neg (by decide)

/-- `pgtable_kva` reads the entry that translates the address. -/
theorem pgtableKva_eq (s : PageMem) (root vaddr : ℕ) :
    s.pgtableKva root vaddr = kvaOfEntry (s.leafOf root vaddr) vaddr := by
  rw [pgtableKva, leafOf, cellAt, tablePath]
  simp only [walk]
  cases nextTable (s.entry root (tableIndex vaddr 39)) with
  | none => exact (kvaOfEntry_zero vaddr).symm
  | some pdpt =>
    simp only [Option.bind_some]
    cases nextTable (s.entry pdpt (tableIndex vaddr 30)) with
    | none => exact (kvaOfEntry_zero vaddr).symm
    | some pd =>
      simp only [Option.bind_some]
      cases nextTable (s.entry pd (tableIndex vaddr 21)) with
      | none => exact (kvaOfEntry_zero vaddr).symm
      | some pt => rfl

theorem tableOf_aligned (e : ℕ) : tableOf e % PAGE_SIZE = 0 := by
  rw [tableOf, frameOf, HHDM_OFFSET, PAGE_SIZE]
  omega

/-- What `pgtable_kva` answers: the address in the frame at the same place as in the page. -/
theorem pgtableKva_eq_some_iff {v k : ℕ} :
    s.pgtableKva root v = some k ↔
      present (s.leafOf root v) = true ∧ k = tableOf (s.leafOf root v) + v % PAGE_SIZE := by
  have hplace : (frameOf (s.leafOf root v) + HHDM_OFFSET + v % PAGE_SIZE) % 2 ^ 64 =
      tableOf (s.leafOf root v) + v % PAGE_SIZE := by
    rw [tableOf, frameOf, HHDM_OFFSET, PAGE_SIZE]
    omega
  rw [pgtableKva_eq, kvaOfEntry, hplace]
  by_cases hp : present (s.leafOf root v) = true
  · rw [if_pos hp, Option.some.injEq]
    exact ⟨fun h => ⟨hp, h.symm⟩, fun h => h.2.symm⟩
  · rw [if_neg hp]
    exact ⟨fun h => absurd h.symm (Option.some_ne_none k), fun h => absurd h.1 hp⟩

/-- `pgtable_is_mapped` looks at the same entry. -/
theorem pgtableIsMapped_eq (s : PageMem) (root vaddr : ℕ) :
    s.pgtableIsMapped root vaddr = present (s.leafOf root vaddr) := by
  obtain ⟨h39, h30, h21, h12⟩ := tableIndex_page vaddr
  have hzero : present 0 = false := by decide
  rw [pgtableIsMapped, leafOf, cellAt, tablePath]
  simp only [walk, h39, h30, h21, h12]
  cases nextTable (s.entry root (tableIndex vaddr 39)) with
  | none => exact hzero.symm
  | some pdpt =>
    simp only [Option.bind_some]
    cases nextTable (s.entry pdpt (tableIndex vaddr 30)) with
    | none => exact hzero.symm
    | some pd =>
      simp only [Option.bind_some]
      cases nextTable (s.entry pd (tableIndex vaddr 21)) with
      | none => exact hzero.symm
      | some pt => rfl

/-- `vmm_alloc` takes the next frame, and the rest is `pgtable_map`. -/
theorem vmmAlloc_cases {vaddr frame : ℕ} (hr : s.vmmAlloc root vaddr flags = some (frame, s')) :
    ∃ pool, s.pool = frame :: pool ∧
      pgtableMap { s with pool := pool } root vaddr ((frame + 2 ^ 64 - HHDM_OFFSET) % 2 ^ 64) flags = some s' := by
  rw [PageMem.vmmAlloc] at hr
  cases hpool : s.pool with
  | nil =>
    rw [hpool] at hr
    cases hr
  | cons f pool =>
    rw [hpool] at hr
    obtain ⟨s₂, hmap, heq⟩ := Option.map_eq_some_iff.mp hr
    obtain ⟨rfl, rfl⟩ := Prod.mk.inj heq
    exact ⟨pool, rfl, hmap⟩

/-- The three levels of `pgtable_map`, and the write that is left. -/
theorem TreeOk.pgtableMap {vaddr paddr : ℕ} (ht : TreeOk own ok s root) (hclosed : Closed ok) (hsub : ∀ P, own P → ok P)
    (hown : Closed own) (hpath : own (tablePath vaddr)) (hflags : flags < PAGE_SIZE) (hp : present flags = true)
    (hr : s.pgtableMap root vaddr paddr flags = some s') :
    ∃ s₁ pt, TreeOk own ok s₁ root ∧ Changes own ok flags s s₁ root (pathCells vaddr) ∧
      walk nextTable s₁.entry (tablePath vaddr) root = some pt ∧
      s' = { s₁ with
        entry := writeCell s₁.entry pt (tableIndex vaddr 12) (paddr / PAGE_SIZE * PAGE_SIZE ||| flags) } := by
  obtain ⟨h39, h30, h21, h12⟩ := tableIndex_page vaddr
  rw [PageMem.pgtableMap] at hr
  simp only [h39, h30, h21, h12] at hr
  set a := tableIndex vaddr 39 with ha
  set b := tableIndex vaddr 30 with hb
  set c := tableIndex vaddr 21 with hc
  have hown2 : own [a, b] := hown [a, b] [c] hpath
  have hown1 : own [a] := hown [a] [b] hown2
  have hown0 : own [] := hown [] [a] hown1
  cases h1 : s.enter root a flags with
  | none =>
    rw [h1] at hr
    cases hr
  | some r1 =>
    obtain ⟨pdpt, s1⟩ := r1
    rw [h1] at hr
    simp only [] at hr
    obtain ⟨ht1, hch1, hw1⟩ := ht.enter hclosed hsub hown0 hown1 rfl hflags hp h1
    cases h2 : s1.enter pdpt b flags with
    | none =>
      rw [h2] at hr
      cases hr
    | some r2 =>
      obtain ⟨pd, s2⟩ := r2
      rw [h2] at hr
      simp only [] at hr
      obtain ⟨ht2, hch2, hw2⟩ := ht1.enter hclosed hsub hown1 hown2 hw1 hflags hp h2
      cases h3 : s2.enter pd c flags with
      | none =>
        rw [h3] at hr
        cases hr
      | some r3 =>
        obtain ⟨pt, s3⟩ := r3
        rw [h3] at hr
        obtain ⟨ht3, hch3, hw3⟩ := ht2.enter hclosed hsub hown2 hpath hw2 hflags hp h3
        exact ⟨s3, pt, ht3, (hch1.trans hch2).trans hch3, hw3, (Option.some.inj hr).symm⟩

/-- One level of `pgtable_map` writes to tables and to free frames only. -/
theorem TreeOk.enter_rest {u : ℕ} (ht : TreeOk own ok s root) (hclosed : Closed ok) (hsub : ∀ P, own P → ok P)
    (hP : own P) (hPi : own (P ++ [i])) (hwalk : walk nextTable s.entry P root = some t) (hflags : flags < PAGE_SIZE)
    (hp : present flags = true) (hr : s.enter t i flags = some (t', s')) (hu : ¬Reached ok s root u)
    (hfree : u ∉ s.pool) : s'.entry u = s.entry u ∧ ¬Reached ok s' root u ∧ u ∉ s'.pool := by
  obtain ⟨-, hch, -⟩ := ht.enter hclosed hsub hP hPi hwalk hflags hp hr
  obtain ⟨used, hused, -, hreached⟩ := hch.used
  rw [hused, List.mem_append, not_or] at hfree
  refine ⟨?_, fun h => ((hreached u).mp h).elim hu hfree.1, hfree.2⟩
  have hut : u ≠ t := fun heq => hu ⟨P, hsub P hP, by rw [hwalk, heq]⟩
  rw [PageMem.enter] at hr
  cases hnext : nextTable (s.entry t i) with
  | some c =>
    rw [hnext] at hr
    obtain ⟨-, rfl⟩ := Prod.mk.inj (Option.some.inj hr)
    rfl
  | none =>
    rw [hnext, pgtableAllocTable] at hr
    cases hpool : s.pool with
    | nil =>
      rw [hpool] at hr
      cases hr
    | cons f pool =>
      rw [hpool] at hr
      obtain ⟨-, rfl⟩ := Prod.mk.inj (Option.some.inj hr)
      have huf : u ≠ f := by
        rintro rfl
        have hmem : u ∈ used ++ pool := hused ▸ hpool ▸ List.mem_cons_self
        exact (List.mem_append.mp hmem).elim hfree.1 hfree.2
      show writeCell (Function.update s.entry f fun _ => 0) t i _ u = s.entry u
      rw [writeCell_table hut, Function.update_of_ne huf]

/-- `pgtable_map` writes to tables and to free frames only. -/
theorem TreeOk.pgtableMap_rest {vaddr paddr u : ℕ} (ht : TreeOk own ok s root) (hclosed : Closed ok)
    (hsub : ∀ P, own P → ok P) (hown : Closed own) (hpath : own (tablePath vaddr)) (hflags : flags < PAGE_SIZE)
    (hp : present flags = true) (hr : s.pgtableMap root vaddr paddr flags = some s') (hu : ¬Reached ok s root u)
    (hfree : u ∉ s.pool) : s'.entry u = s.entry u := by
  obtain ⟨h39, h30, h21, h12⟩ := tableIndex_page vaddr
  rw [PageMem.pgtableMap] at hr
  simp only [h39, h30, h21, h12] at hr
  have hown2 : own [tableIndex vaddr 39, tableIndex vaddr 30] := hown _ [tableIndex vaddr 21] hpath
  have hown1 : own [tableIndex vaddr 39] := hown _ [tableIndex vaddr 30] hown2
  have hown0 : own [] := hown [] [tableIndex vaddr 39] hown1
  cases h1 : s.enter root (tableIndex vaddr 39) flags with
  | none =>
    rw [h1] at hr
    cases hr
  | some r1 =>
    obtain ⟨pdpt, s1⟩ := r1
    rw [h1] at hr
    simp only [] at hr
    obtain ⟨ht1, -, hw1⟩ := ht.enter hclosed hsub hown0 hown1 rfl hflags hp h1
    obtain ⟨he1, hu1, hf1⟩ := ht.enter_rest hclosed hsub hown0 hown1 rfl hflags hp h1 hu hfree
    cases h2 : s1.enter pdpt (tableIndex vaddr 30) flags with
    | none =>
      rw [h2] at hr
      cases hr
    | some r2 =>
      obtain ⟨pd, s2⟩ := r2
      rw [h2] at hr
      simp only [] at hr
      obtain ⟨ht2, -, hw2⟩ := ht1.enter hclosed hsub hown1 hown2 hw1 hflags hp h2
      obtain ⟨he2, hu2, hf2⟩ := ht1.enter_rest hclosed hsub hown1 hown2 hw1 hflags hp h2 hu1 hf1
      cases h3 : s2.enter pd (tableIndex vaddr 21) flags with
      | none =>
        rw [h3] at hr
        cases hr
      | some r3 =>
        obtain ⟨pt, s3⟩ := r3
        rw [h3] at hr
        obtain rfl := Option.some.inj hr
        obtain ⟨-, -, hw3⟩ := ht2.enter hclosed hsub hown2 hpath hw2 hflags hp h3
        obtain ⟨he3, hu3, -⟩ := ht2.enter_rest hclosed hsub hown2 hpath hw2 hflags hp h3 hu2 hf2
        have hut : u ≠ pt := fun heq => hu3 ⟨_, hsub _ hpath, by rw [heq]; exact hw3⟩
        show writeCell s3.entry pt _ _ u = s.entry u
        rw [writeCell_table hut, he3, he2, he1]

/-! ### Address spaces -/

/-- The paths to the tables of an address space. -/
def TablePath : List ℕ → Prop := Follows (fun _ => List.range 512) 3

/-- The paths to the tables of the user half. -/
def UserTablePath : List ℕ → Prop :=
  Follows (fun level => List.range (if level = 2 then KERNEL_PML4_INDEX else 512)) 3

theorem tableIndex_lt (vaddr shift : ℕ) : tableIndex vaddr shift < 512 := Nat.mod_lt _ (by decide)

/-- The first index of a user-half address is below the kernel's. -/
theorem tableIndex_user {vaddr : ℕ} (hv : vaddr < 2 ^ 47) : tableIndex vaddr 39 < KERNEL_PML4_INDEX := by
  rw [tableIndex, KERNEL_PML4_INDEX]
  omega

theorem UserTablePath.tablePath (h : UserTablePath P) : TablePath P := by
  match P, h with
  | [], _ => exact follows_nil _ 3
  | [a], ⟨ha, _⟩ =>
    have ha := List.mem_range.mp ha
    rw [if_pos rfl, KERNEL_PML4_INDEX] at ha
    exact ⟨List.mem_range.mpr (by omega), trivial⟩
  | [a, b], ⟨ha, hb, _⟩ =>
    have ha := List.mem_range.mp ha
    rw [if_pos rfl, KERNEL_PML4_INDEX] at ha
    exact ⟨List.mem_range.mpr (by omega), hb, trivial⟩
  | [a, b, c], ⟨ha, hb, hc, _⟩ =>
    have ha := List.mem_range.mp ha
    rw [if_pos rfl, KERNEL_PML4_INDEX] at ha
    exact ⟨List.mem_range.mpr (by omega), hb, hc, trivial⟩
  | _ :: _ :: _ :: _ :: _, ⟨_, _, _, hrest⟩ => exact hrest.elim

theorem tablePath_tablePath (vaddr : ℕ) : TablePath (tablePath vaddr) :=
  ⟨List.mem_range.mpr (tableIndex_lt vaddr 39), List.mem_range.mpr (tableIndex_lt vaddr 30),
    List.mem_range.mpr (tableIndex_lt vaddr 21), trivial⟩

theorem userTablePath_tablePath {vaddr : ℕ} (hv : tableIndex vaddr 39 < KERNEL_PML4_INDEX) :
    UserTablePath (tablePath vaddr) :=
  ⟨List.mem_range.mpr hv, List.mem_range.mpr (tableIndex_lt vaddr 30),
    List.mem_range.mpr (tableIndex_lt vaddr 21), trivial⟩

/-- The last write of `pgtable_map` is below every table. -/
theorem not_tablePath_leaf (vaddr i : ℕ) : ¬TablePath (tablePath vaddr ++ [i]) := fun h => h.2.2.2

/-- The cells passed on the way are not the one written last. -/
theorem leaf_not_mem_pathCells (vaddr vaddr' i : ℕ) : (tablePath vaddr, i) ∉ pathCells vaddr' := by
  simp [tablePath, pathCells]

/-- The addresses of the machine: the lower half, and the upper half. -/
def Canonical (vaddr : ℕ) : Prop := vaddr < 2 ^ 47 ∨ HHDM_OFFSET ≤ vaddr ∧ vaddr < 2 ^ 64

/-- The indices of an address belong to its page alone. -/
theorem page_of_indices {v w : ℕ} (hv : Canonical v) (hw : Canonical w)
    (hpath : tablePath w = tablePath v) (hlast : tableIndex w 12 = tableIndex v 12) :
    w / PAGE_SIZE = v / PAGE_SIZE := by
  simp only [tablePath, List.cons.injEq, and_true] at hpath
  obtain ⟨h39, h30, h21⟩ := hpath
  simp only [tableIndex] at h39 h30 h21 hlast
  rw [Canonical, HHDM_OFFSET] at hv hw
  rw [PAGE_SIZE]
  omega

/-- **`pgtable_alloc_table`** hands out the next frame, which is the only table then and holds no entry. -/
theorem pgtableAllocTable_spec (hframes : ∀ f ∈ s.pool, IsFrame f) (hnodup : s.pool.Nodup)
    (hr : s.pgtableAllocTable = some (root, s')) :
    s.pool = root :: s'.pool ∧ TreeOk TablePath TablePath s' root ∧ (∀ t, Reached TablePath s' root t → t = root) ∧
      ∀ P i, s'.cellAt root P i = 0 := by
  rw [pgtableAllocTable] at hr
  cases hp : s.pool with
  | nil =>
    rw [hp] at hr
    cases hr
  | cons f pool =>
    rw [hp] at hr
    obtain ⟨rfl, rfl⟩ := Prod.mk.inj (Option.some.inj hr)
    rw [hp, List.nodup_cons] at hnodup
    rw [hp] at hframes
    have hzero : ∀ i, Function.update s.entry f (fun _ => 0) f i = 0 := by
      intro i
      rw [Function.update_self]
    have hwalk : ∀ i P, walk nextTable (Function.update s.entry f fun _ => 0) (i :: P) f = none := by
      intro i P
      show (nextTable (Function.update s.entry f (fun _ => 0) f i)).bind _ = none
      rw [hzero, nextTable_zero]
      rfl
    have hroot : ∀ P t, walk nextTable (Function.update s.entry f fun _ => 0) P f = some t → P = [] ∧ t = f := by
      intro P t hPt
      cases P with
      | nil => exact ⟨rfl, (Option.some.inj hPt).symm⟩
      | cons i P =>
        rw [hwalk] at hPt
        cases hPt
    refine ⟨rfl, ⟨fun P Q t _ _ hPt hQt => ?_, fun g hg => hframes g (List.mem_cons_of_mem f hg), hnodup.2,
      fun g hg P _ hPg => ?_⟩, fun t ht => ?_, fun P i => ?_⟩
    · rw [(hroot P t hPt).1, (hroot Q t hQt).1]
    · rw [(hroot P g hPg).2] at hg
      exact hnodup.1 hg
    · obtain ⟨P, -, hPt⟩ := ht
      exact (hroot P t hPt).2
    · rw [cellAt]
      cases P with
      | nil => exact hzero i
      | cons j P => simp only [hwalk]

/-- The frames to be handed out are frames of the direct map, each of them once, and no table of the kernel is one. -/
structure FreshPool (s : PageMem) (kernelPml4 : ℕ) : Prop where
  frames : ∀ f ∈ s.pool, IsFrame f
  nodup : s.pool.Nodup
  fresh : ∀ f ∈ s.pool, ∀ P, TablePath P → walk nextTable s.entry P kernelPml4 ≠ some f

/-- What `pgtable_create` leaves: the next frame holds the upper half of the kernel's table and nothing else. -/
theorem pgtableCreate_spec {kernelPml4 : ℕ} (hpool : FreshPool s kernelPml4)
    (hr : s.pgtableCreate kernelPml4 = some (root, s')) :
    s.pool = root :: s'.pool ∧ (∀ u, u ≠ root → s'.entry u = s.entry u) ∧
      ∀ i, s'.entry root i = if KERNEL_PML4_INDEX ≤ i ∧ i < 512 then s.entry kernelPml4 i else 0 := by
  rw [pgtableCreate, pgtableAllocTable] at hr
  cases hp : s.pool with
  | nil =>
    rw [hp] at hr
    cases hr
  | cons f pool =>
    rw [hp] at hr
    obtain ⟨rfl, rfl⟩ := Prod.mk.inj (Option.some.inj hr)
    have hf : f ∈ s.pool := by
      rw [hp]
      exact List.mem_cons_self
    have hne : kernelPml4 ≠ f := by
      intro heq
      exact hpool.fresh f hf [] (follows_nil _ 3) (congrArg some heq)
    refine ⟨rfl, fun u hu => ?_, fun i => ?_⟩
    · show Function.update (Function.update s.entry f fun _ => 0) f _ u = s.entry u
      rw [Function.update_of_ne hu, Function.update_of_ne hu]
    · show Function.update (Function.update s.entry f fun _ => 0) f _ f i = _
      rw [Function.update_self]
      show (if KERNEL_PML4_INDEX ≤ i ∧ i < 512 then Function.update s.entry f (fun _ => 0) kernelPml4 i
        else Function.update s.entry f (fun _ => 0) f i) = _
      rw [Function.update_self, Function.update_of_ne hne]

/-- The tables of a new address space below its first one are those of the kernel. -/
theorem pgtableCreate_walk {kernelPml4 : ℕ} (hpool : FreshPool s kernelPml4)
    (hr : s.pgtableCreate kernelPml4 = some (root, s')) (hP : TablePath (i :: P)) :
    walk nextTable s'.entry (i :: P) root =
      if KERNEL_PML4_INDEX ≤ i then walk nextTable s.entry (i :: P) kernelPml4 else none := by
  obtain ⟨hp, hother, hroot⟩ := pgtableCreate_spec hpool hr
  have hi : i < 512 := List.mem_range.mp hP.1
  have hf : root ∈ s.pool := by
    rw [hp]
    exact List.mem_cons_self
  have hsame : walk nextTable s'.entry (i :: P) kernelPml4 = walk nextTable s.entry (i :: P) kernelPml4 :=
    walk_of_fresh (Follows.closed _ 3) (hpool.fresh root hf) hother hP
  have hne : kernelPml4 ≠ root := fun heq => hpool.fresh root hf [] (follows_nil _ 3) (congrArg some heq)
  rw [← hsame]
  show (nextTable (s'.entry root i)).bind _ = if KERNEL_PML4_INDEX ≤ i then
    (nextTable (s'.entry kernelPml4 i)).bind (walk nextTable s'.entry P) else none
  rw [hroot i, hother kernelPml4 hne]
  by_cases hk : KERNEL_PML4_INDEX ≤ i
  · rw [if_pos ⟨hk, hi⟩, if_pos hk]
  · rw [if_neg fun h => hk h.1, if_neg hk, nextTable_zero]
    rfl

/-- A new address space is a tree. -/
theorem TreeOk.create {kernelPml4 : ℕ} (hpool : FreshPool s kernelPml4)
    (hr : s.pgtableCreate kernelPml4 = some (root, s')) : TreeOk UserTablePath TablePath s' root := by
  obtain ⟨hp, -, -⟩ := pgtableCreate_spec hpool hr
  have hnodup := hpool.nodup
  rw [hp, List.nodup_cons] at hnodup
  have hmem : ∀ f ∈ s'.pool, f ∈ s.pool := by
    intro f hf
    rw [hp]
    exact List.mem_cons_of_mem _ hf
  -- whatever frame was in the pool is reached by no path with an index in it
  have hfar : ∀ f ∈ s.pool, ∀ i P, TablePath (i :: P) → walk nextTable s'.entry (i :: P) root ≠ some f := by
    intro f hf i P hP
    rw [pgtableCreate_walk hpool hr hP]
    split
    · exact hpool.fresh f hf (i :: P) hP
    · exact nofun
  refine ⟨fun P Q t hP hQ hPt hQt => ?_, fun f hf => hpool.frames f (hmem f hf), hnodup.2, fun f hf P hP => ?_⟩
  · cases P with
    | nil =>
      obtain rfl := Option.some.inj hPt
      cases Q with
      | nil => rfl
      | cons i Q =>
        refine absurd hQt (hfar _ ?_ i Q hQ)
        rw [hp]
        exact List.mem_cons_self
    | cons i P =>
      -- the user half is empty
      have hi : i < KERNEL_PML4_INDEX := List.mem_range.mp hP.1
      rw [pgtableCreate_walk hpool hr hP.tablePath, if_neg (by omega)] at hPt
      cases hPt
  · cases P with
    | nil =>
      intro heq
      rw [Option.some.inj heq] at hnodup
      exact hnodup.1 hf
    | cons i P => exact hfar f (hmem f hf) i P hP

/-- A new address space translates no user-half address. -/
theorem leafOf_create {kernelPml4 vaddr : ℕ} (hpool : FreshPool s kernelPml4)
    (hr : s.pgtableCreate kernelPml4 = some (root, s')) (hv : tableIndex vaddr 39 < KERNEL_PML4_INDEX) :
    s'.leafOf root vaddr = 0 := by
  rw [leafOf, cellAt, tablePath, pgtableCreate_walk hpool hr (tablePath_tablePath vaddr), if_neg]
  exact Nat.not_le.mpr hv

/-- **`pgtable_map`** sets the entry that translates its address, and no other; the tables it takes are what is
reached from then on. -/
theorem TreeOk.map_leaf {vaddr paddr : ℕ} (ht : TreeOk own TablePath s root) (hsub : ∀ P, own P → TablePath P)
    (hown : Closed own) (hpath : own (tablePath vaddr)) (hflags : flags < PAGE_SIZE) (hp : present flags = true)
    (hr : s.pgtableMap root vaddr paddr flags = some s') :
    TreeOk own TablePath s' root ∧ s'.leafOf root vaddr = paddr / PAGE_SIZE * PAGE_SIZE ||| flags ∧
      (∀ w, (tablePath w, tableIndex w 12) ≠ (tablePath vaddr, tableIndex vaddr 12) →
        s'.leafOf root w = s.leafOf root w) ∧
      ∃ used, s.pool = used ++ s'.pool ∧ ∀ t, Reached TablePath s' root t → Reached TablePath s root t ∨ t ∈ used := by
  have hclosed : Closed TablePath := Follows.closed _ 3
  obtain ⟨s₁, pt, ht₁, hch, hwalk, rfl⟩ := ht.pgtableMap hclosed hsub hown hpath hflags hp hr
  obtain ⟨htree, hleaf, hself, hwalks⟩ := ht₁.leaf hclosed hsub hpath hwalk
    (not_tablePath_leaf vaddr (tableIndex vaddr 12)) (paddr / PAGE_SIZE * PAGE_SIZE ||| flags)
  obtain ⟨used, hused, -, hreached⟩ := hch.used
  refine ⟨htree, hself, fun w hw => ?_, used, hused, fun t ⟨P, hP, hPt⟩ => (hreached t).mp ⟨P, hP, ?_⟩⟩
  · rw [leafOf, hleaf _ _ (tablePath_tablePath w) hw, hch.cell _ _ (tablePath_tablePath w)
      (leaf_not_mem_pathCells w vaddr _), leafOf]
  · rw [← hwalks P hP]
    exact hPt

/-- The same for pages: the page of the call, and the other ones. -/
theorem TreeOk.map {vaddr paddr : ℕ} (ht : TreeOk UserTablePath TablePath s root) (hv : vaddr < 2 ^ 47)
    (hflags : flags < PAGE_SIZE) (hp : present flags = true) (hr : s.pgtableMap root vaddr paddr flags = some s') :
    TreeOk UserTablePath TablePath s' root ∧
      (∀ w, w / PAGE_SIZE = vaddr / PAGE_SIZE → s'.leafOf root w = paddr / PAGE_SIZE * PAGE_SIZE ||| flags) ∧
      ∀ w, Canonical w → w / PAGE_SIZE ≠ vaddr / PAGE_SIZE → s'.leafOf root w = s.leafOf root w := by
  obtain ⟨htree, hself, hother, -⟩ := ht.map_leaf (fun _ h => h.tablePath) (Follows.closed _ 3)
    (userTablePath_tablePath (tableIndex_user hv)) hflags hp hr
  refine ⟨htree, fun w hpage => ?_, fun w hw hpage => hother w fun heq => ?_⟩
  · rw [leafOf_page s' root hpage]
    exact hself
  · obtain ⟨hpath, hlast⟩ := Prod.mk.inj heq
    exact hpage (page_of_indices (.inl hv) hw hpath hlast)

end PageMem

/-! ### Runs of `pgtable_map` -/

/-- An address space, with the physical address last mapped at each page. -/
structure Space where
  mem : PageMem
  pml4 : ℕ
  pages : ℕ → Option ℕ

/-- The arguments of a call of `pgtable_map`. -/
structure MapCall where
  vaddr : ℕ
  paddr : ℕ
  flags : ℕ

/-- A user-half address, a physical address of the direct map, and flags for a present page of 4 KiB. -/
structure MapCall.Valid (c : MapCall) : Prop where
  user : c.vaddr < 2 ^ 47
  physical : c.paddr < 2 ^ 47
  flags : c.flags < PAGE_SIZE
  present : present c.flags = true
  notHuge : huge c.flags = false

namespace Space

/-- One call of `pgtable_map`. -/
def step (x : Space) (c : MapCall) (y : Space) : Prop :=
  c.Valid ∧ ∃ m, x.mem.pgtableMap x.pml4 c.vaddr c.paddr c.flags = some m ∧
    y = ⟨m, x.pml4, Function.update x.pages (c.vaddr / PAGE_SIZE) (some c.paddr)⟩

/-- The tables are a tree, and translate a user-half page to the frame last mapped there. -/
structure Refines (x : Space) : Prop where
  tree : PageMem.TreeOk PageMem.UserTablePath PageMem.TablePath x.mem x.pml4
  unmapped : ∀ v < 2 ^ 47, x.pages (v / PAGE_SIZE) = none → x.mem.leafOf x.pml4 v = 0
  mapped : ∀ v < 2 ^ 47, ∀ p, x.pages (v / PAGE_SIZE) = some p → p < 2 ^ 47 ∧
    ∃ flags, flags < PAGE_SIZE ∧ present flags = true ∧
      x.mem.leafOf x.pml4 v = p / PAGE_SIZE * PAGE_SIZE ||| flags

theorem Refines.step {x y : Space} {c : MapCall} (h : x.Refines) (hstep : Space.step x c y) : y.Refines := by
  obtain ⟨hc, m, hm, rfl⟩ := hstep
  obtain ⟨htree, hself, hother⟩ := h.tree.map hc.user hc.flags hc.present hm
  refine ⟨htree, fun v hv hnone => ?_, fun v hv p hsome => ?_⟩
  · have hne : v / PAGE_SIZE ≠ c.vaddr / PAGE_SIZE := by
      intro heq
      have hpages : Function.update x.pages (c.vaddr / PAGE_SIZE) (some c.paddr) (v / PAGE_SIZE) = none := hnone
      rw [heq, Function.update_self] at hpages
      cases hpages
    have hpages : Function.update x.pages (c.vaddr / PAGE_SIZE) (some c.paddr) (v / PAGE_SIZE) = none := hnone
    rw [Function.update_of_ne hne] at hpages
    show m.leafOf x.pml4 v = 0
    rw [hother v (.inl hv) hne]
    exact h.unmapped v hv hpages
  · have hpages : Function.update x.pages (c.vaddr / PAGE_SIZE) (some c.paddr) (v / PAGE_SIZE) = some p := hsome
    by_cases heq : v / PAGE_SIZE = c.vaddr / PAGE_SIZE
    · rw [heq, Function.update_self] at hpages
      obtain rfl := Option.some.inj hpages
      exact ⟨hc.physical, c.flags, hc.flags, hc.present, hself v heq⟩
    · rw [Function.update_of_ne heq] at hpages
      obtain ⟨hp, flags, hflags, hpresent, hleaf⟩ := h.mapped v hv p hpages
      refine ⟨hp, flags, hflags, hpresent, ?_⟩
      show m.leafOf x.pml4 v = _
      rw [hother v (.inl hv) heq, hleaf]

/-- A mapped page is translated to its frame. -/
theorem kvaOfEntry_entry {p flags v : ℕ} (hp : p < 2 ^ 47) (hflags : flags < PAGE_SIZE)
    (hpresent : present flags = true) :
    PageMem.kvaOfEntry (p / PAGE_SIZE * PAGE_SIZE ||| flags) v =
      some (HHDM_OFFSET + p / PAGE_SIZE * PAGE_SIZE + v % PAGE_SIZE) := by
  have haligned : p / PAGE_SIZE * PAGE_SIZE % PAGE_SIZE = 0 := Nat.mul_mod_left _ _
  have hfits : p / PAGE_SIZE * PAGE_SIZE + HHDM_OFFSET + v % PAGE_SIZE < 2 ^ 64 := by
    rw [PAGE_SIZE, HHDM_OFFSET]
    omega
  rw [PageMem.kvaOfEntry, if_pos (present_entry haligned hflags hpresent), frameOf_entry haligned hflags,
    Nat.mod_eq_of_lt hfits, Nat.add_comm (p / PAGE_SIZE * PAGE_SIZE)]

/-- **An address space is a partial map from pages to frames**: `pgtable_kva` gives the address last mapped at the page,
`pgtable_is_mapped` says whether there is one, and a call changes the translation of no other page. -/
theorem translation_of_run {s m : PageMem} {kernelPml4 pml4 : ℕ} {x : Space} (hpool : s.FreshPool kernelPml4)
    (hcreate : s.pgtableCreate kernelPml4 = some (pml4, m))
    (hrun : Reaches Space.step ⟨m, pml4, fun _ => none⟩ x) :
    (∀ v < 2 ^ 47, x.mem.pgtableKva x.pml4 v =
      (x.pages (v / PAGE_SIZE)).map fun p => HHDM_OFFSET + p / PAGE_SIZE * PAGE_SIZE + v % PAGE_SIZE) ∧
    (∀ v < 2 ^ 47, x.mem.pgtableIsMapped x.pml4 v = (x.mem.pgtableKva x.pml4 v).isSome) ∧
    ∀ c y, Space.step x c y → ∀ v, PageMem.Canonical v → v / PAGE_SIZE ≠ c.vaddr / PAGE_SIZE →
      y.mem.pgtableKva y.pml4 v = x.mem.pgtableKva x.pml4 v ∧
        y.mem.pgtableIsMapped y.pml4 v = x.mem.pgtableIsMapped x.pml4 v := by
  have hx : x.Refines := by
    refine hrun.invariant ⟨PageMem.TreeOk.create hpool hcreate, fun v hv _ => ?_, fun v _ p hp => ?_⟩ ?_
    · exact PageMem.leafOf_create hpool hcreate (PageMem.tableIndex_user hv)
    · cases hp
    · intro a c b ha hstep
      exact ha.step hstep
  refine ⟨fun v hv => ?_, fun v hv => ?_, fun c y hstep v hv hne => ?_⟩
  · rw [PageMem.pgtableKva_eq]
    cases hpages : x.pages (v / PAGE_SIZE) with
    | none =>
      rw [hx.unmapped v hv hpages]
      exact PageMem.kvaOfEntry_zero v
    | some p =>
      obtain ⟨hp, flags, hflags, hpresent, hleaf⟩ := hx.mapped v hv p hpages
      rw [hleaf]
      exact kvaOfEntry_entry hp hflags hpresent
  · rw [PageMem.pgtableKva_eq, PageMem.pgtableIsMapped_eq, PageMem.kvaOfEntry]
    split
    · assumption
    · rename_i hnot
      exact Bool.eq_false_iff.mpr hnot
  · obtain ⟨hc, m', hm, rfl⟩ := hstep
    obtain ⟨-, -, hother⟩ := hx.tree.map hc.user hc.flags hc.present hm
    rw [PageMem.pgtableKva_eq, PageMem.pgtableKva_eq, PageMem.pgtableIsMapped_eq, PageMem.pgtableIsMapped_eq]
    rw [hother v hv hne]
    exact ⟨rfl, rfl⟩

/-- A kernel with one empty table and six free frames. -/
def sixFrames : PageMem :=
  ⟨fun _ _ => 0, [HHDM_OFFSET + 0x2000, HHDM_OFFSET + 0x3000, HHDM_OFFSET + 0x4000, HHDM_OFFSET + 0x5000,
    HHDM_OFFSET + 0x6000, HHDM_OFFSET + 0x7000]⟩

theorem sixFrames_freshPool : sixFrames.FreshPool (HHDM_OFFSET + 0x1000) := by
  refine ⟨?_, by decide, fun f hf P _ => ?_⟩
  · intro f hf
    simp only [sixFrames, List.mem_cons, List.not_mem_nil, or_false] at hf
    obtain rfl | rfl | rfl | rfl | rfl | rfl := hf
    all_goals exact ⟨by decide, by decide, by decide⟩
  · cases P with
    | nil =>
      intro heq
      rw [← Option.some.inj heq] at hf
      revert hf
      decide
    | cons i P =>
      show (nextTable 0).bind _ ≠ some f
      rw [nextTable_zero]
      exact nofun

theorem translation_of_run_onePage : ∃ m pml4 x, sixFrames.pgtableCreate (HHDM_OFFSET + 0x1000) = some (pml4, m) ∧
    Reaches Space.step ⟨m, pml4, fun _ => none⟩ x ∧
      x.mem.pgtableKva x.pml4 0x400123 = some (HHDM_OFFSET + 0x9123) ∧ x.mem.pgtableKva x.pml4 0x401123 = none := by
  obtain ⟨m, hm⟩ : ∃ m, sixFrames.pgtableCreate (HHDM_OFFSET + 0x1000) = some (HHDM_OFFSET + 0x2000, m) := ⟨_, rfl⟩
  obtain ⟨m', hm'⟩ : ∃ m', m.pgtableMap (HHDM_OFFSET + 0x2000) 0x400000 0x9000 7 = some m' := by
    obtain rfl := (Prod.mk.inj (Option.some.inj hm)).2
    exact ⟨_, rfl⟩
  have hrun : Reaches Space.step ⟨m, HHDM_OFFSET + 0x2000, fun _ => none⟩
      ⟨m', HHDM_OFFSET + 0x2000, Function.update (fun _ => none) (0x400000 / PAGE_SIZE) (some 0x9000)⟩ := by
    refine .next (a := ⟨0x400000, 0x9000, 7⟩) .start ⟨?_, m', hm', rfl⟩
    exact ⟨by decide, by decide, by decide, by decide, by decide⟩
  obtain ⟨hkva, -, -⟩ := translation_of_run sixFrames_freshPool hm hrun
  refine ⟨m, _, _, hm, hrun, ?_, ?_⟩
  · rw [hkva _ (by decide)]
    rfl
  · rw [hkva _ (by decide)]
    rfl

end Space

end LizardOs.Mm
