import LizardOs.Mm.PageMap

/-!
# Teardown of an address space

`pgtable_free_tree` gives back the tables and the pages below the user half of a PML4, and the PML4 itself.  The walk
clears each entry behind it, but in a tree the entries still to be visited are other ones, so what is freed is what
`collect` gathers before the walk.  In an address space that was built by `vmm_alloc` alone this is what was taken
from `buddy_alloc`.
-/

namespace LizardOs.Mm

open LizardOs.Lib

/-- The indices that `pgtable_free_level` visits. -/
def freeIndices (level : ℕ) : List ℕ := List.range (if level = 3 then KERNEL_PML4_INDEX else 512)

/-- What hangs below one entry. -/
def subtree (m : ℕ → ℕ → ℕ) (level table i : ℕ) : List ℕ :=
  match nextTable (m table i) with
  | none => []
  | some c => collect nextTable m freeIndices level c ++ [c]

theorem collect_succ (m : ℕ → ℕ → ℕ) (level table : ℕ) :
    collect nextTable m freeIndices (level + 1) table = (freeIndices level).flatMap (subtree m level table) := by
  rw [collect]
  congr 1
  funext i
  rw [subtree]
  cases nextTable (m table i) with
  | none => rfl
  | some c => rfl

section

variable {m₀ m : ℕ → ℕ → ℕ} {level table : ℕ}

/-- The entries that the loop has not visited yet, and what hangs below them, are as they were before the walk. -/
def Untouched (m₀ m : ℕ → ℕ → ℕ) (level table : ℕ) (is : List ℕ) : Prop :=
  ∀ i ∈ is, m table i = m₀ table i ∧ ∀ u ∈ subtree m₀ level table i, m u = m₀ u

/-- **The loop of `pgtable_free_level`** frees what hangs below the entries, and touches nothing else. -/
theorem freeLoop_spec {below : ℕ → (ℕ → ℕ → ℕ) → List ℕ × (ℕ → ℕ → ℕ)} {is : List ℕ} (hnodup : is.Nodup)
    (hdisjoint : is.Pairwise (Function.onFun List.Disjoint (subtree m₀ level table)))
    (hself : ∀ i ∈ is, table ∉ subtree m₀ level table i)
    (hplain : ∀ i ∈ is, ∀ c, nextTable (m₀ table i) = some c → huge (m₀ table i) = false ∧ c ≠ 0)
    (hbelow : level ≠ 0 → ∀ i ∈ is, ∀ c, nextTable (m₀ table i) = some c → ∀ m,
      (∀ u ∈ subtree m₀ level table i, m u = m₀ u) →
      (below c m).1 = collect nextTable m₀ freeIndices level c ∧
        ∀ u, u ∉ subtree m₀ level table i → (below c m).2 u = m u)
    (hm : Untouched m₀ m level table is) :
    (freeLoop below level table is m).1 = is.flatMap (subtree m₀ level table) ∧
      (∀ u, u ≠ table → u ∉ is.flatMap (subtree m₀ level table) → (freeLoop below level table is m).2 u = m u) ∧
      ∀ j, j ∉ is → (freeLoop below level table is m).2 table j = m table j := by
  induction is generalizing m with
  | nil => exact ⟨rfl, fun _ _ _ => rfl, fun _ _ => rfl⟩
  | cons i is ih =>
    obtain ⟨hi, hnodup⟩ := List.nodup_cons.mp hnodup
    obtain ⟨hidisjoint, hdisjoint⟩ := List.pairwise_cons.mp hdisjoint
    obtain ⟨hentry, hsub⟩ := hm i List.mem_cons_self
    have htail : ∀ {p : ℕ → Prop}, (∀ j ∈ i :: is, p j) → ∀ j ∈ is, p j :=
      fun h j hj => h j (List.mem_cons_of_mem _ hj)
    have ih := fun m => ih (m := m) hnodup hdisjoint (htail hself) (htail hplain) fun h => htail (hbelow h)
    cases hc : nextTable (m₀ table i) with
    | none =>
      have hpresent : present (m table i) = false := by
        rw [hentry]
        by_contra hp
        rw [nextTable_of_present (Bool.not_eq_false _ ▸ hp)] at hc
        cases hc
      have hnil : subtree m₀ level table i = [] := by rw [subtree, hc]
      obtain ⟨hfreed, hother, htable⟩ := ih m (htail hm)
      rw [freeLoop, if_pos hpresent, List.flatMap_cons, hnil, List.nil_append]
      exact ⟨hfreed, hother, fun j hj => htable j fun h => hj (List.mem_cons_of_mem _ h)⟩
    | some c =>
      have hpresent : present (m₀ table i) = true := by
        by_contra hp
        rw [nextTable, if_neg hp] at hc
        cases hc
      have hchild : tableOf (m₀ table i) = c := by
        rw [nextTable_of_present hpresent] at hc
        exact Option.some.inj hc
      obtain ⟨hhuge, hne⟩ := hplain i List.mem_cons_self c hc
      have hsubtree : subtree m₀ level table i = collect nextTable m₀ freeIndices level c ++ [c] := by rw [subtree, hc]
      -- what one round frees and changes
      obtain ⟨r, hr, hrfreed, hrother⟩ : ∃ r : List ℕ × (ℕ → ℕ → ℕ),
          (if level = 0 then ([c], m) else if huge (m₀ table i) = true then ([], m)
            else ((below c m).1 ++ pgtableFree c, (below c m).2)) = r ∧
          r.1 = subtree m₀ level table i ∧ ∀ u, u ∉ subtree m₀ level table i → r.2 u = m u := by
        by_cases hlevel : level = 0
        · refine ⟨_, if_pos hlevel, ?_, fun _ _ => rfl⟩
          rw [hsubtree, hlevel]
          rfl
        · obtain ⟨hfreed, hother⟩ := hbelow hlevel i List.mem_cons_self c hc m hsub
          refine ⟨((below c m).1 ++ pgtableFree c, (below c m).2),
            by rw [if_neg hlevel, hhuge, if_neg Bool.false_ne_true], ?_, hother⟩
          show (below c m).1 ++ pgtableFree c = _
          rw [hfreed, pgtableFree, if_neg hne, hsubtree]
      have hmtable : r.2 table = m table := hrother table (hself i List.mem_cons_self)
      have hnext : Untouched m₀ (writeCell r.2 table i 0) level table is := by
        intro j hj
        obtain ⟨hjentry, hjsub⟩ := hm j (List.mem_cons_of_mem _ hj)
        refine ⟨?_, fun u hu => ?_⟩
        · have hji : j ≠ i := fun heq => hi (heq ▸ hj)
          rw [writeCell_of_ne (.inr hji), hmtable, hjentry]
        · have hut : u ≠ table := fun heq => hself j (List.mem_cons_of_mem _ hj) (heq ▸ hu)
          rw [writeCell_table hut, hrother u fun h => hidisjoint j hj h hu, hjsub u hu]
      obtain ⟨hfreed, hother, htable⟩ := ih _ hnext
      have hloop : freeLoop below level table (i :: is) m =
          (r.1 ++ (freeLoop below level table is (writeCell r.2 table i 0)).1,
            (freeLoop below level table is (writeCell r.2 table i 0)).2) := by
        rw [freeLoop, hentry, hchild, if_neg (by rw [hpresent]; decide)]
        simp only [hr]
      rw [hloop, List.flatMap_cons]
      refine ⟨by rw [hfreed, hrfreed], fun u hut hu => ?_, fun j hj => ?_⟩
      · rw [List.mem_append, not_or] at hu
        rw [hother u hut hu.2, writeCell_table hut, hrother u hu.1]
      · rw [List.mem_cons, not_or] at hj
        rw [htable j hj.2, writeCell_of_ne (.inr hj.1), hmtable]

/-- The entries of the tables are not for huge pages, and lead to a frame. -/
def Plain (m : ℕ → ℕ → ℕ) (d table : ℕ) : Prop :=
  ∀ P i t, Follows freeIndices d (P ++ [i]) → walk nextTable m P table = some t →
    ∀ c, nextTable (m t i) = some c → huge (m t i) = false ∧ c ≠ 0

theorem Plain.below {d i c : ℕ} (h : Plain m (d + 1) table) (hi : i ∈ freeIndices d)
    (hc : nextTable (m table i) = some c) : Plain m d c := by
  intro P j t hP hwalk
  exact h (i :: P) j t ⟨hi, hP⟩ (walk_cons_of_child hc hwalk)

/-- What hangs below one entry is below the table. -/
theorem mem_collect_of_subtree {i u : ℕ} (hi : i ∈ freeIndices level) (hu : u ∈ subtree m level table i) :
    u ∈ collect nextTable m freeIndices (level + 1) table := by
  rw [collect_succ]
  exact List.mem_flatMap.mpr ⟨i, hi, hu⟩

/-- What hangs below two entries of a tree has nothing in common. -/
theorem subtree_disjoint
    (hb : Branching nextTable m (Follows freeIndices (level + 1)) (Follows freeIndices (level + 1)) table) :
    (freeIndices level).Pairwise (Function.onFun List.Disjoint (subtree m level table)) := by
  have hnodup : (collect nextTable m freeIndices (level + 1) table).Nodup :=
    nodup_collect (fun _ => List.nodup_range) hb
  rw [collect_succ, List.nodup_flatMap] at hnodup
  exact hnodup.2

/-- **`pgtable_free_level`** frees the tables and pages below a table, each after those below it, and changes no other
table. -/
theorem pgtableFreeLevel_spec
    (hb : Branching nextTable m₀ (Follows freeIndices (level + 1)) (Follows freeIndices (level + 1)) table)
    (hplain : Plain m₀ (level + 1) table) (htable : m table = m₀ table)
    (hm : ∀ u ∈ collect nextTable m₀ freeIndices (level + 1) table, m u = m₀ u) :
    (pgtableFreeLevel level table m).1 = collect nextTable m₀ freeIndices (level + 1) table ∧
      (∀ u, u ≠ table → u ∉ collect nextTable m₀ freeIndices (level + 1) table →
        (pgtableFreeLevel level table m).2 u = m u) ∧
      ∀ j, j ∉ freeIndices level → (pgtableFreeLevel level table m).2 table j = m table j := by
  induction level generalizing table m with
  | zero =>
    have hloop : pgtableFreeLevel 0 table m = freeLoop (fun _ m => ([], m)) 0 table (freeIndices 0) m := by
      rw [pgtableFreeLevel, freeIndices, if_neg (by decide)]
    rw [collect_succ, hloop]
    exact freeLoop_spec List.nodup_range (subtree_disjoint hb)
      (fun i hi h => hb.not_mem_collect (mem_collect_of_subtree hi h))
      (fun i hi => hplain [] i table ⟨hi, trivial⟩ rfl) (fun h => absurd rfl h)
      fun i hi => ⟨congrFun htable i, fun u hu => hm u (mem_collect_of_subtree hi hu)⟩
  | succ level ih =>
    have hloop : pgtableFreeLevel (level + 1) table m =
        freeLoop (pgtableFreeLevel level) (level + 1) table (freeIndices (level + 1)) m := by
      rw [pgtableFreeLevel, freeIndices]
    rw [collect_succ, hloop]
    refine freeLoop_spec List.nodup_range (subtree_disjoint hb)
      (fun i hi h => hb.not_mem_collect (mem_collect_of_subtree hi h))
      (fun i hi => hplain [] i table ⟨hi, trivial⟩ rfl) ?_
      fun i hi => ⟨congrFun htable i, fun u hu => hm u (mem_collect_of_subtree hi hu)⟩
    intro _ i hi c hc m' hm'
    have hsubtree : subtree m₀ (level + 1) table i = collect nextTable m₀ freeIndices (level + 1) c ++ [c] := by
      rw [subtree, hc]
    rw [hsubtree] at hm' ⊢
    obtain ⟨hfreed, hother, -⟩ := ih (hb.below hi hc) (hplain.below hi hc) (hm' c (by simp))
      fun u hu => hm' u (List.mem_append_left _ hu)
    refine ⟨hfreed, fun u hu => ?_⟩
    rw [List.mem_append, not_or, List.mem_singleton] at hu
    exact hother u hu.2 hu.1

end

/-! ### Address spaces built by `vmm_alloc` -/

namespace PageMem

variable {s s' : PageMem} {root : ℕ} {P : List ℕ}

/-- The paths to the tables and the pages of the user half. -/
def UserPath : List ℕ → Prop := Follows freeIndices 4

/-- The paths of the user half, and those to the tables of the kernel half. -/
def SpacePath (P : List ℕ) : Prop := UserPath P ∨ TablePath P

theorem SpacePath.closed : Closed SpacePath := by
  intro P Q h
  exact h.imp (Follows.closed _ 4 P Q) (Follows.closed _ 3 P Q)

/-- The indices of an address, down to its page. -/
def pagePath (vaddr : ℕ) : List ℕ := tablePath vaddr ++ [tableIndex vaddr 12]

theorem userPath_pagePath {vaddr : ℕ} (hv : vaddr < 2 ^ 47) : UserPath (pagePath vaddr) :=
  ⟨List.mem_range.mpr (tableIndex_user hv), List.mem_range.mpr (tableIndex_lt vaddr 30),
    List.mem_range.mpr (tableIndex_lt vaddr 21), List.mem_range.mpr (tableIndex_lt vaddr 12), trivial⟩

theorem userPath_tablePath {vaddr : ℕ} (hv : vaddr < 2 ^ 47) : UserPath (tablePath vaddr) :=
  Follows.closed _ 4 _ _ (userPath_pagePath hv)

/-- There is no path through a page. -/
theorem not_spacePath_page (vaddr j : ℕ) : ¬SpacePath (pagePath vaddr ++ [j]) := by
  rintro (h | h)
  · exact h.2.2.2.2
  · exact h.2.2.2

/-- The user half of a new address space is empty. -/
theorem walk_create_user {kernelPml4 i : ℕ} (hpool : FreshPool s kernelPml4)
    (hr : s.pgtableCreate kernelPml4 = some (root, s')) (hP : UserPath (i :: P)) :
    walk nextTable s'.entry (i :: P) root = none := by
  obtain ⟨-, -, hroot⟩ := pgtableCreate_spec hpool hr
  have hi : i < KERNEL_PML4_INDEX := List.mem_range.mp hP.1
  show (nextTable (s'.entry root i)).bind _ = none
  rw [hroot i, if_neg (by omega), nextTable_zero]
  rfl

/-- A new address space is a tree, and so are its pages. -/
theorem TreeOk.createPages {kernelPml4 : ℕ} (hpool : FreshPool s kernelPml4)
    (hr : s.pgtableCreate kernelPml4 = some (root, s')) : TreeOk UserPath SpacePath s' root := by
  have ht := TreeOk.create hpool hr
  obtain ⟨hp, -, -⟩ := pgtableCreate_spec hpool hr
  refine ⟨fun P Q t hP hQ hPt hQt => ?_, ht.frames, ht.nodup, fun f hf P hP => ?_⟩
  · cases P with
    | cons i P =>
      rw [walk_create_user hpool hr hP] at hPt
      cases hPt
    | nil =>
      cases Q with
      | nil => rfl
      | cons j Q =>
        rcases hQ with hQ | hQ
        · rw [walk_create_user hpool hr hQ] at hQt
          cases hQt
        · exact ht.tree [] (j :: Q) t (follows_nil _ 3) hQ hPt hQt
  · rcases hP with hP | hP
    · cases P with
      | nil => exact ht.fresh f hf [] (follows_nil _ 3)
      | cons i P =>
        rw [walk_create_user hpool hr hP]
        exact nofun
    · exact ht.fresh f hf P hP

/-- **`vmm_alloc`** for a page that is not there hangs its frame in at the end of the page's path, and the frames it
takes are what is reached from then on. -/
theorem TreeOk.vmmAlloc {f vaddr flags : ℕ} (ht : TreeOk UserPath SpacePath s root) (hv : vaddr < 2 ^ 47)
    (hempty : nextTable (s.leafOf root vaddr) = none) (hflags : flags < PAGE_SIZE) (hp : present flags = true)
    (hr : s.vmmAlloc root vaddr flags = some (f, s')) :
    TreeOk UserPath SpacePath s' root ∧
      (∀ P i, UserPath (P ++ [i]) → s'.cellAt root P i = s.cellAt root P i ∨
        ∃ a, a % PAGE_SIZE = 0 ∧ s'.cellAt root P i = a ||| flags) ∧
      (∀ w < 2 ^ 47, w / PAGE_SIZE ≠ vaddr / PAGE_SIZE → s'.leafOf root w = s.leafOf root w) ∧
      ∃ used, s.pool = used ++ s'.pool ∧ ∀ t, Reached UserPath s' root t ↔ Reached UserPath s root t ∨ t ∈ used := by
  have hsub : ∀ P, UserPath P → SpacePath P := fun _ => .inl
  have hclosed := SpacePath.closed
  have hpath := userPath_tablePath hv
  obtain ⟨rest, hpool, hmap⟩ := vmmAlloc_cases hr
  -- the frame is taken out of the pool before the tables are
  obtain ⟨htree₀, hframe, hfrest, hffresh⟩ := ht.take hpool
  obtain ⟨s₁, pt, htree₁, hch, hwalk, rfl⟩ :=
    htree₀.pgtableMap hclosed hsub (Follows.closed _ 4) hpath hflags hp hmap
  obtain ⟨used₁, hused₁, hown₁, hok₁⟩ := hch.used
  have hused₁ : rest = used₁ ++ s₁.pool := hused₁
  have hleaf : ∀ w < 2 ^ 47, s₁.leafOf root w = s.leafOf root w := by
    intro w hw
    exact hch.cell _ _ (hsub _ (userPath_tablePath hw)) (leaf_not_mem_pathCells w vaddr _)
  have hnone : nextTable (s₁.entry pt (tableIndex vaddr 12)) = none := by
    rw [← cellAt_of_walk hwalk]
    exact (congrArg nextTable (hleaf vaddr hv)).trans hempty
  have hfresh : ∀ Q, SpacePath Q → walk nextTable s₁.entry Q root ≠ some f := by
    intro Q hQ hQf
    rcases (hok₁ f).mp ⟨Q, hQ, hQf⟩ with ⟨R, hR, hRf⟩ | hmem
    · exact hffresh R hR hRf
    · apply hfrest
      rw [hused₁]
      exact List.mem_append_left _ hmem
  have hfpool : f ∉ s₁.pool := by
    intro hmem
    apply hfrest
    rw [hused₁]
    exact List.mem_append_right _ hmem
  rw [hframe.paddr_page]
  obtain ⟨htree, hself, hat, hothers, hwalks⟩ := htree₁.hang hclosed hsub hpath hwalk hnone
    (hframe.nextTable_entry hflags hp) hfpool hfresh fun j hj => absurd hj (not_spacePath_page vaddr j)
  set s₂ : PageMem := { s₁ with
    entry := writeCell s₁.entry pt (tableIndex vaddr 12) ((f + 2 ^ 64 - HHDM_OFFSET) % 2 ^ 64 ||| flags) } with hs₂
  refine ⟨htree, fun P i hP => ?_, fun w hw hne => ?_, f :: used₁, ?_, fun t => ?_⟩
  · have hPok := hsub P (Follows.closed _ 4 P [i] hP)
    by_cases hPi : (P, i) = (tablePath vaddr, tableIndex vaddr 12)
    · obtain ⟨rfl, rfl⟩ := Prod.mk.inj hPi
      exact .inr ⟨_, hframe.paddr.1, hat⟩
    · have hPne : P ≠ tablePath vaddr ++ [tableIndex vaddr 12] := by
        rintro rfl
        exact not_spacePath_page vaddr i (hsub _ hP)
      rw [hothers P i hPok hPne hPi]
      exact hch.entries P i hPok
  · have hwne : tablePath w ≠ tablePath vaddr ++ [tableIndex vaddr 12] := by
      intro heq
      exact absurd (congrArg List.length heq) (by simp [tablePath])
    have hcell : (tablePath w, tableIndex w 12) ≠ (tablePath vaddr, tableIndex vaddr 12) := by
      intro heq
      obtain ⟨hwpath, hlast⟩ := Prod.mk.inj heq
      exact hne (page_of_indices (.inl hv) (.inl hw) hwpath hlast)
    exact (hothers _ _ (hsub _ (userPath_tablePath hw)) hwne hcell).trans (hleaf w hw)
  · rw [hpool]
    exact congrArg (List.cons f) hused₁
  · have hbefore : walk nextTable s₁.entry (pagePath vaddr) root = none := by
      rw [pagePath, walk_concat, hwalk]
      exact hnone
    have hgrow : Reached UserPath s₂ root t ↔ Reached UserPath s₁ root t ∨ t = f :=
      reached_of_grow hself (fun Q hQ => hwalks Q (hsub Q hQ)) hbefore (userPath_pagePath hv) t
    have hsame : Reached UserPath { s with pool := rest } root t ↔ Reached UserPath s root t := Iff.rfl
    rw [hgrow, hown₁ t, hsame, List.mem_cons, or_assoc, or_comm (a := t ∈ used₁)]

end PageMem

/-- An address space, with the pages that `vmm_alloc` was called for. -/
structure TaskSpace where
  mem : PageMem
  pml4 : ℕ
  pages : List ℕ

namespace TaskSpace

/-- One call of `vmm_alloc` for a page of the user half that has none yet. -/
def step (x : TaskSpace) (vaddr : ℕ) (y : TaskSpace) : Prop :=
  vaddr < 2 ^ 47 ∧ vaddr / PAGE_SIZE ∉ x.pages ∧
    ∃ f m, x.mem.vmmAlloc x.pml4 vaddr (PAGE_PRESENT ||| PAGE_WRITABLE ||| PAGE_USER) = some (f, m) ∧
      y = ⟨m, x.pml4, vaddr / PAGE_SIZE :: x.pages⟩

/-- The address space is a tree of plain entries, with nothing where no page was asked for, and what is in it are the
frames taken from `pool₀`. -/
structure Built (pool₀ : List ℕ) (x : TaskSpace) : Prop where
  tree : PageMem.TreeOk PageMem.UserPath PageMem.SpacePath x.mem x.pml4
  plain : ∀ P i, PageMem.UserPath (P ++ [i]) → huge (x.mem.cellAt x.pml4 P i) = false
  unmapped : ∀ v < 2 ^ 47, v / PAGE_SIZE ∉ x.pages → nextTable (x.mem.leafOf x.pml4 v) = none
  used : ∃ used, pool₀ = used ++ x.mem.pool ∧ ∀ t, PageMem.Reached PageMem.UserPath x.mem x.pml4 t ↔ t ∈ used

variable {pool₀ : List ℕ} {x y : TaskSpace} {vaddr : ℕ}

theorem Built.step (h : Built pool₀ x) (hstep : TaskSpace.step x vaddr y) : Built pool₀ y := by
  obtain ⟨hv, hpage, f, m, hm, rfl⟩ := hstep
  have hflags : PAGE_PRESENT ||| PAGE_WRITABLE ||| PAGE_USER < PAGE_SIZE := by decide
  have hhuge : huge (PAGE_PRESENT ||| PAGE_WRITABLE ||| PAGE_USER) = false := by decide
  obtain ⟨htree, hcells, hleaf, used₁, hused₁, hreached₁⟩ :=
    h.tree.vmmAlloc hv (h.unmapped vaddr hv hpage) hflags (by decide) hm
  obtain ⟨used, hused, hreached⟩ := h.used
  refine ⟨htree, fun P i hP => ?_, fun w hw hnot => ?_, used ++ used₁, ?_, fun t => ?_⟩
  · show huge (m.cellAt x.pml4 P i) = false
    rcases hcells P i hP with hsame | ⟨a, ha, hnew⟩
    · rw [hsame]
      exact h.plain P i hP
    · rw [hnew, huge_entry ha hflags, hhuge]
  · rw [List.mem_cons, not_or] at hnot
    show nextTable (m.leafOf x.pml4 w) = none
    rw [hleaf w hw hnot.1]
    exact h.unmapped w hw hnot.2
  · rw [hused, hused₁, List.append_assoc]
  · show PageMem.Reached PageMem.UserPath m x.pml4 t ↔ _
    rw [hreached₁ t, hreached t, List.mem_append]

/-- A new address space holds its PML4 alone. -/
theorem Built.create {s m : PageMem} {kernelPml4 pml4 : ℕ} (hpool : s.FreshPool kernelPml4)
    (hcreate : s.pgtableCreate kernelPml4 = some (pml4, m)) : Built s.pool ⟨m, pml4, []⟩ := by
  obtain ⟨hp, -, -⟩ := PageMem.pgtableCreate_spec hpool hcreate
  refine ⟨PageMem.TreeOk.createPages hpool hcreate, fun P i hP => ?_, fun v hv _ => ?_, [pml4], hp, fun t => ?_⟩
  · have hzero : m.cellAt pml4 P i = 0 := by
      cases P with
      | nil =>
        obtain ⟨-, -, hroot⟩ := PageMem.pgtableCreate_spec hpool hcreate
        have hi : i < KERNEL_PML4_INDEX := List.mem_range.mp hP.1
        exact (hroot i).trans (if_neg (by omega))
      | cons j P =>
        have hP' : PageMem.UserPath (j :: P) := Follows.closed _ 4 (j :: P) [i] hP
        rw [PageMem.cellAt, PageMem.walk_create_user hpool hcreate hP']
    show huge (m.cellAt pml4 P i) = false
    rw [hzero]
    decide
  · show nextTable (m.leafOf pml4 v) = none
    rw [PageMem.leafOf_create hpool hcreate (PageMem.tableIndex_user hv)]
    exact nextTable_zero
  · rw [List.mem_singleton]
    constructor
    · rintro ⟨P, hP, hwalk⟩
      cases P with
      | nil => exact (Option.some.inj hwalk).symm
      | cons i P =>
        have hnone := PageMem.walk_create_user hpool hcreate hP
        cases hnone.symm.trans hwalk
    · rintro rfl
      exact ⟨[], follows_nil _ 4, rfl⟩

/-- **Teardown is exact**: what `pgtable_free_tree` gives back is what was taken from `buddy_alloc` for the address
space, each frame once, and no table of the kernel half is freed or changed. -/
theorem freed_of_run {s m : PageMem} {kernelPml4 pml4 : ℕ} (hpool : s.FreshPool kernelPml4)
    (hcreate : s.pgtableCreate kernelPml4 = some (pml4, m)) (hrun : Reaches TaskSpace.step ⟨m, pml4, []⟩ x) :
    (∃ used, s.pool = used ++ x.mem.pool ∧ (pgtableFreeTree x.pml4 x.mem.entry).1.Perm used) ∧
      (pgtableFreeTree x.pml4 x.mem.entry).1.Nodup ∧
      (∀ i P t, KERNEL_PML4_INDEX ≤ i → PageMem.TablePath (i :: P) →
        walk nextTable x.mem.entry (i :: P) x.pml4 = some t →
        t ∉ (pgtableFreeTree x.pml4 x.mem.entry).1 ∧ (pgtableFreeTree x.pml4 x.mem.entry).2 t = x.mem.entry t) ∧
      ∀ i, KERNEL_PML4_INDEX ≤ i →
        (pgtableFreeTree x.pml4 x.mem.entry).2 x.pml4 i = x.mem.entry x.pml4 i := by
  have hx : Built s.pool x := hrun.invariant (Built.create hpool hcreate) fun _ _ _ h hstep => h.step hstep
  obtain ⟨used, hused, hreached⟩ := hx.used
  have hframe : ∀ t ∈ used, t ≠ 0 := by
    intro t ht
    apply (hpool.frames t _).ne_zero
    rw [hused]
    exact List.mem_append_left _ ht
  have hpml4 : x.pml4 ∈ used := (hreached x.pml4).mp ⟨[], follows_nil _ 4, rfl⟩
  have hb : Branching nextTable x.mem.entry (Follows freeIndices 4) (Follows freeIndices 4) x.pml4 :=
    fun P Q t hP hQ => hx.tree.tree P Q t hP (.inl hQ)
  have hplain : Plain x.mem.entry 4 x.pml4 := by
    intro P i t hP hwalk c hc
    refine ⟨?_, hframe c ((hreached c).mp ⟨P ++ [i], hP, ?_⟩)⟩
    · rw [← PageMem.cellAt_of_walk hwalk]
      exact hx.plain P i hP
    · rw [walk_concat, hwalk]
      exact hc
  obtain ⟨hfreed, hother, htable⟩ := pgtableFreeLevel_spec hb hplain rfl fun _ _ => rfl
  have htree : pgtableFreeTree x.pml4 x.mem.entry =
      (collect nextTable x.mem.entry freeIndices 4 x.pml4 ++ [x.pml4],
        (pgtableFreeLevel 3 x.pml4 x.mem.entry).2) := by
    rw [pgtableFreeTree, if_neg (hframe _ hpml4), hfreed, pgtableFree, if_neg (hframe _ hpml4)]
  have hmem : ∀ t, t ∈ collect nextTable x.mem.entry freeIndices 4 x.pml4 ++ [x.pml4] ↔
      PageMem.Reached PageMem.UserPath x.mem x.pml4 t := by
    intro t
    rw [List.mem_append, mem_collect, List.mem_singleton]
    constructor
    · rintro (⟨P, -, hP, hwalk⟩ | rfl)
      · exact ⟨P, hP, hwalk⟩
      · exact ⟨[], follows_nil _ 4, rfl⟩
    · rintro ⟨P, hP, hwalk⟩
      by_cases hnil : P = []
      · rw [hnil] at hwalk
        exact .inr (Option.some.inj hwalk).symm
      · exact .inl ⟨P, hnil, hP, hwalk⟩
  have hnodup : (collect nextTable x.mem.entry freeIndices 4 x.pml4 ++ [x.pml4]).Nodup := by
    have hcollect : (collect nextTable x.mem.entry freeIndices 4 x.pml4).Nodup :=
      nodup_collect (fun _ => List.nodup_range) hb
    rw [List.nodup_append]
    refine ⟨hcollect, List.nodup_singleton _, fun a ha b hb' hab => ?_⟩
    rw [hab, List.mem_singleton.mp hb'] at ha
    exact hb.not_mem_collect ha
  have hused_nodup : used.Nodup := by
    have hall := hpool.nodup
    rw [hused, List.nodup_append] at hall
    exact hall.1
  rw [htree]
  refine ⟨⟨used, hused, ?_⟩, hnodup, fun i P t hi hP hwalk => ?_, fun i hi => ?_⟩
  · rw [List.perm_ext_iff_of_nodup hnodup hused_nodup]
    intro t
    rw [hmem t, hreached t]
  · -- a table of the kernel half is reached by no path of the user half
    have hnot : t ∉ collect nextTable x.mem.entry freeIndices 4 x.pml4 ++ [x.pml4] := by
      intro ht
      obtain ⟨Q, hQ, hQt⟩ := (hmem t).mp ht
      have heq := hx.tree.tree Q (i :: P) t hQ (.inr hP) hQt hwalk
      rw [heq] at hQ
      have hlt : i < KERNEL_PML4_INDEX := List.mem_range.mp hQ.1
      omega
    refine ⟨hnot, ?_⟩
    rw [List.mem_append, not_or, List.mem_singleton] at hnot
    exact hother t hnot.2 hnot.1
  · apply htable
    intro hmem'
    have hlt : i < KERNEL_PML4_INDEX := List.mem_range.mp hmem'
    omega

theorem freed_of_run_onePage : ∃ m pml4 x,
    Space.sixFrames.pgtableCreate (HHDM_OFFSET + 0x1000) = some (pml4, m) ∧
      Reaches TaskSpace.step ⟨m, pml4, []⟩ x ∧
      (pgtableFreeTree x.pml4 x.mem.entry).1.Perm (Space.sixFrames.pool.take 5) := by
  obtain ⟨m, hm⟩ : ∃ m, Space.sixFrames.pgtableCreate (HHDM_OFFSET + 0x1000) = some (HHDM_OFFSET + 0x2000, m) :=
    ⟨_, rfl⟩
  obtain ⟨f, m', hm', hrest⟩ : ∃ f m', m.vmmAlloc (HHDM_OFFSET + 0x2000) 0x400000
      (PAGE_PRESENT ||| PAGE_WRITABLE ||| PAGE_USER) = some (f, m') ∧ m'.pool = [HHDM_OFFSET + 0x7000] := by
    obtain rfl := (Prod.mk.inj (Option.some.inj hm)).2
    exact ⟨_, _, rfl, rfl⟩
  have hrun : Reaches TaskSpace.step ⟨m, HHDM_OFFSET + 0x2000, []⟩
      ⟨m', HHDM_OFFSET + 0x2000, [0x400000 / PAGE_SIZE]⟩ :=
    .next .start ⟨by decide, List.not_mem_nil, f, m', hm', rfl⟩
  obtain ⟨⟨used, hused, hperm⟩, -⟩ := freed_of_run Space.sixFrames_freshPool hm hrun
  refine ⟨m, _, _, hm, hrun, ?_⟩
  have hpool : Space.sixFrames.pool = Space.sixFrames.pool.take 5 ++ [HHDM_OFFSET + 0x7000] := rfl
  have husedeq : used = Space.sixFrames.pool.take 5 := by
    have happend : used ++ [HHDM_OFFSET + 0x7000] = Space.sixFrames.pool.take 5 ++ [HHDM_OFFSET + 0x7000] := by
      rw [← hpool, hused]
      exact congrArg (used ++ ·) hrest.symm
    exact List.append_cancel_right happend
  rw [← husedeq]
  exact hperm

end TaskSpace

end LizardOs.Mm
