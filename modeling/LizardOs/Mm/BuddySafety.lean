import LizardOs.Mm.Buddy

/-!
# The page allocator never hands out a page twice

The blocks on the free lists and the blocks handed out tile the pages that were free at boot: `Buddy.Inv` says
so, together with the flags of the pages and the counters of the lists.  `buddy_init` establishes it,
`buddy_alloc` moves one piece of a free block to the outstanding ones, and `buddy_free` moves it back.
-/

namespace LizardOs.Mm

open LizardOs.Lib

/-! ### Lists of lists with one entry changed -/

theorem flatMap_update_cons {α : Type} (f : ℕ → List α) (k : ℕ) (x : α) {l : List ℕ} (hl : l.Nodup)
    (hk : k ∈ l) : (l.flatMap (Function.update f k (x :: f k))).Perm (x :: l.flatMap f) := by
  induction l with
  | nil => cases hk
  | cons j l ih =>
    obtain ⟨hj, hl⟩ := List.nodup_cons.mp hl
    rw [List.flatMap_cons, List.flatMap_cons]
    by_cases hjk : j = k
    · subst hjk
      have hrest : l.flatMap (Function.update f j (x :: f j)) = l.flatMap f := by
        apply List.flatMap_congr
        intro i hi
        have hij : i ≠ j := by
          intro hij
          exact hj (hij ▸ hi)
        rw [Function.update_of_ne hij]
      rw [Function.update_self, hrest, List.cons_append]
    · rw [Function.update_of_ne hjk]
      have hk' : k ∈ l := by
        rcases List.mem_cons.mp hk with hk | hk
        · exact absurd hk.symm hjk
        · exact hk
      exact ((ih hl hk').append_left (f j)).trans List.perm_middle

namespace Buddy

variable {b : Buddy} {out : List Block} {F : ℕ → Prop} {pfn order i k : ℕ}

/-- The blocks of an area. -/
def areaBlocks (b : Buddy) (k : ℕ) : List Block := (b.freeAreas k).freeList.map fun p => ⟨p, k⟩

/-- The blocks on the free lists. -/
def freeBlocks (b : Buddy) : List Block := (List.range (MAX_ORDER + 1)).flatMap b.areaBlocks

theorem mem_freeBlocks {blk : Block} :
    blk ∈ b.freeBlocks ↔
      blk.order ≤ MAX_ORDER ∧ blk.start ∈ (b.freeAreas blk.order).freeList := by
  simp only [freeBlocks, areaBlocks, List.mem_flatMap, List.mem_range, List.mem_map]
  constructor
  · rintro ⟨k, hk, p, hp, rfl⟩
    exact ⟨Nat.lt_succ_iff.mp hk, hp⟩
  · intro ⟨hk, hp⟩
    exact ⟨blk.order, Nat.lt_succ_iff.mpr hk, blk.start, hp, rfl⟩

/-! ### What each update does to the blocks and the flags -/

theorem areaBlocks_addBlock (b : Buddy) (pfn k : ℕ) :
    (b.addBlock pfn k).areaBlocks =
      Function.update b.areaBlocks k (⟨pfn, k⟩ :: b.areaBlocks k) := by
  funext j
  by_cases hj : j = k
  · subst hj
    simp only [areaBlocks, addBlock, Function.update_self, List.map_cons]
  · simp only [areaBlocks, addBlock, Function.update_of_ne hj]

theorem freeBlocks_addBlock (b : Buddy) (pfn : ℕ) (hk : k ≤ MAX_ORDER) :
    (b.addBlock pfn k).freeBlocks.Perm (⟨pfn, k⟩ :: b.freeBlocks) := by
  rw [freeBlocks, areaBlocks_addBlock]
  exact flatMap_update_cons b.areaBlocks k ⟨pfn, k⟩ List.nodup_range
    (List.mem_range.mpr (Nat.lt_succ_iff.mpr hk))

theorem freeBlocks_takeBlock {rest : List ℕ} (hi : i ≤ MAX_ORDER)
    (hlist : (b.freeAreas i).freeList = pfn :: rest) :
    b.freeBlocks.Perm (⟨pfn, i⟩ :: (b.takeBlock i).freeBlocks) := by
  have hback : b.areaBlocks =
      Function.update (b.takeBlock i).areaBlocks i (⟨pfn, i⟩ :: (b.takeBlock i).areaBlocks i) := by
    funext j
    by_cases hj : j = i
    · subst hj
      simp only [areaBlocks, takeBlock, Function.update_self, hlist, List.map_cons, List.tail_cons]
    · simp only [areaBlocks, takeBlock, Function.update_of_ne hj]
  have hperm := flatMap_update_cons (b.takeBlock i).areaBlocks i ⟨pfn, i⟩ List.nodup_range
    (List.mem_range.mpr (Nat.lt_succ_iff.mpr hi))
  rw [← hback] at hperm
  exact hperm

theorem freeBlocks_splitDown (pfn order i : ℕ) (hi : i ≤ MAX_ORDER + 1) (b : Buddy) :
    (splitDown pfn order i b).freeBlocks.Perm (splitOff pfn order i ++ b.freeBlocks) := by
  induction i generalizing b with
  | zero => exact List.Perm.refl _
  | succ i ih =>
    unfold splitDown splitOff
    split
    · rw [List.append_assoc, List.singleton_append]
      exact (ih (by omega) _).trans
        ((freeBlocks_addBlock b (pfn + 2 ^ i) (by omega)).append_left _)
    · exact List.Perm.refl _

theorem splitDown_pageCount (i : ℕ) (b : Buddy) :
    (splitDown pfn order i b).pageCount = b.pageCount := by
  induction i generalizing b with
  | zero => rfl
  | succ i ih =>
    unfold splitDown
    split
    · exact ih _
    · rfl

theorem splitDown_hhdmOffset (i : ℕ) (b : Buddy) :
    (splitDown pfn order i b).hhdmOffset = b.hhdmOffset := by
  induction i generalizing b with
  | zero => rfl
  | succ i ih =>
    unfold splitDown
    split
    · exact ih _
    · rfl

/-- Putting a block whose first page is free on a list changes no flag. -/
theorem addBlock_flags (h : (b.pages pfn).flags = .free) (k p : ℕ) :
    ((b.addBlock pfn k).pages p).flags = (b.pages p).flags := by
  by_cases hp : p = pfn
  · subst hp
    simp only [addBlock, Function.update_self, h]
  · simp only [addBlock, Function.update_of_ne hp]

/-- Splitting a free block changes no flag. -/
theorem splitDown_flags (i : ℕ) (b : Buddy)
    (h : ∀ p, pfn ≤ p → p < pfn + 2 ^ i → (b.pages p).flags = .free) (p : ℕ) :
    ((splitDown pfn order i b).pages p).flags = (b.pages p).flags := by
  induction i generalizing b with
  | zero => rfl
  | succ i ih =>
    have hpos := Nat.two_pow_pos i
    have hdouble : 2 ^ (i + 1) = 2 ^ i + 2 ^ i := by rw [pow_succ]; omega
    have hmid : (b.pages (pfn + 2 ^ i)).flags = .free := h _ (by omega) (by omega)
    unfold splitDown
    split
    · rw [ih _ fun q h1 h2 => ?_]
      · exact addBlock_flags hmid i p
      · rw [addBlock_flags hmid]
        exact h q h1 (by omega)
    · rfl

/-- The counter of every list is its length. -/
def Counted (b : Buddy) : Prop :=
  ∀ k ≤ MAX_ORDER, (b.freeAreas k).freeCount = (b.freeAreas k).freeList.length

theorem Counted.addBlock (h : b.Counted) (pfn k : ℕ) : (b.addBlock pfn k).Counted := by
  intro j hj
  by_cases hjk : j = k
  · subst hjk
    simp only [Buddy.addBlock, Function.update_self, List.length_cons, h j hj]
    push_cast
    rfl
  · simp only [Buddy.addBlock, Function.update_of_ne hjk]
    exact h j hj

theorem Counted.takeBlock (h : b.Counted) (hne : (b.freeAreas i).freeList ≠ []) :
    (b.takeBlock i).Counted := by
  intro j hj
  by_cases hji : j = i
  · subst hji
    have hpos := List.length_pos_iff.mpr hne
    simp only [Buddy.takeBlock, Function.update_self, List.length_tail, h j hj]
    omega
  · simp only [Buddy.takeBlock, Function.update_of_ne hji]
    exact h j hj

theorem Counted.splitDown (i : ℕ) {b : Buddy} (h : b.Counted) :
    (Buddy.splitDown pfn order i b).Counted := by
  induction i generalizing b with
  | zero => exact h
  | succ i ih =>
    unfold Buddy.splitDown
    split
    · exact ih (h.addBlock _ i)
    · exact h

/-! ### The invariant -/

/-- The free blocks and the outstanding ones tile the pages of `F`, and the flags and counters agree. -/
structure Inv (b : Buddy) (out : List Block) (F : ℕ → Prop) : Prop where
  tiles : Tiles (b.freeBlocks ++ out) b.pageCount F
  freeFlags : ∀ blk ∈ b.freeBlocks, ∀ p, blk.Has p → (b.pages p).flags = .free
  outFlags : ∀ blk ∈ out, ∀ p, blk.Has p → (b.pages p).flags = .allocated
  counted : b.Counted
  orders : ∀ blk ∈ out, blk.order ≤ MAX_ORDER

theorem firstArea_some (h : b.firstArea order = some i) :
    order ≤ i ∧ i ≤ MAX_ORDER ∧ ∃ pfn rest, (b.freeAreas i).freeList = pfn :: rest := by
  have hmem := List.mem_of_find?_eq_some h
  rw [List.mem_range'_1] at hmem
  have hne := List.find?_some h
  refine ⟨hmem.1, by omega, ?_⟩
  cases hlist : (b.freeAreas i).freeList with
  | nil => simp [hlist] at hne
  | cons p rest => exact ⟨p, rest, rfl⟩

theorem firstArea_none (h : b.firstArea order = none) (hk : order ≤ k) (hk' : k ≤ MAX_ORDER) :
    (b.freeAreas k).freeList = [] := by
  have hempty := List.find?_eq_none.mp h k (List.mem_range'_1.mpr ⟨hk, by omega⟩)
  simpa using hempty

/-- **`buddy_alloc`**: it fails only without a block of the order, and then changes nothing; otherwise one block
that was free becomes outstanding. -/
theorem alloc_spec (h : Inv b out F) (order : ℕ) :
    (b.alloc order = (0, b) ∧
      ∀ k, order ≤ k → k ≤ MAX_ORDER → (b.freeAreas k).freeList = []) ∨
    ∃ pfn b', b.alloc order = (b.vaddr pfn, b') ∧ Inv b' (⟨pfn, order⟩ :: out) F ∧
      b'.pageCount = b.pageCount ∧ b'.hhdmOffset = b.hhdmOffset ∧
      (∀ p, (⟨pfn, order⟩ : Block).Has p → (b.pages p).flags = .free) ∧
      ∃ k, order ≤ k ∧ k ≤ MAX_ORDER ∧ (b.freeAreas k).freeList ≠ [] := by
  by_cases horder : MAX_ORDER < order
  · left
    refine ⟨by simp only [alloc, if_pos horder], fun k h1 h2 => ?_⟩
    omega
  cases hfirst : b.firstArea order with
  | none =>
    left
    refine ⟨by simp only [alloc, if_neg horder, hfirst], fun k h1 h2 => firstArea_none hfirst h1 h2⟩
  | some i =>
    right
    obtain ⟨hoi, himax, pfn, rest, hlist⟩ := firstArea_some hfirst
    set b₁ := splitDown pfn order i (b.takeBlock i) with hb₁
    have hhead : (b.freeAreas i).freeList.headD 0 = pfn := by rw [hlist]; rfl
    have hmem : (⟨pfn, i⟩ : Block) ∈ b.freeBlocks :=
      mem_freeBlocks.mpr ⟨himax, by rw [hlist]; simp⟩
    have hfree := h.freeFlags ⟨pfn, i⟩ hmem
    have hsplit : ∀ p, pfn ≤ p → p < pfn + 2 ^ i → ((b.takeBlock i).pages p).flags = .free :=
      fun p h1 h2 => hfree p ⟨h1, h2⟩
    have hflags : ∀ p, (b₁.pages p).flags = (b.pages p).flags :=
      fun p => splitDown_flags i (b.takeBlock i) hsplit p
    have hpow : 2 ^ order ≤ 2 ^ i := Nat.pow_le_pow_right (by norm_num) hoi
    have hsub : ∀ p, (⟨pfn, order⟩ : Block).Has p → (⟨pfn, i⟩ : Block).Has p := by
      intro p ⟨h1, h2⟩
      refine ⟨h1, ?_⟩
      simp only [Block.stop] at h2 ⊢
      omega
    -- the tiling: take the block out, split it, and count the lower piece as outstanding
    have hcount : b₁.pageCount = b.pageCount := splitDown_pageCount i _
    have hperm : (b.freeBlocks ++ out).Perm (⟨pfn, i⟩ :: ((b.takeBlock i).freeBlocks ++ out)) :=
      (freeBlocks_takeBlock himax hlist).append_right out
    have htiles : Tiles (b₁.freeBlocks ++ ⟨pfn, order⟩ :: out) b.pageCount F := by
      apply ((h.tiles.perm hperm).splitOff i hoi).perm
      have hpieces := freeBlocks_splitDown pfn order i (by omega) (b.takeBlock i)
      refine List.Perm.trans ?_ List.perm_middle.symm
      refine List.Perm.cons _ ?_
      rw [← List.append_assoc]
      exact (hpieces.symm.append_right out)
    have hb₁free : ∀ blk ∈ b₁.freeBlocks, ∀ p, blk.Has p → (b₁.pages p).flags = .free := by
      intro blk hblk p hp
      rw [hflags p]
      have hpieces := freeBlocks_splitDown pfn order i (by omega) (b.takeBlock i)
      rcases List.mem_append.mp (hpieces.mem_iff.mp hblk) with hblk' | hblk'
      · apply hfree p
        exact splitOff_has hblk' hp
      · have hold : blk ∈ b.freeBlocks :=
          (freeBlocks_takeBlock himax hlist).mem_iff.mpr (List.mem_cons_of_mem _ hblk')
        exact h.freeFlags blk hold p hp
    refine ⟨pfn, b₁.markAllocated pfn order, ?_, ?_, hcount, splitDown_hhdmOffset i _, ?_,
      i, hoi, himax, by rw [hlist]; simp⟩
    · simp only [alloc, if_neg horder, hfirst, hhead, ← hb₁]
      rw [vaddr, vaddr, hb₁, splitDown_hhdmOffset]
      rfl
    · have happart : ∀ blk ∈ b₁.freeBlocks ++ out, ∀ p, blk.Has p →
          ¬(pfn ≤ p ∧ p < pfn + 2 ^ order) := by
        intro blk hblk p hp hin
        have hmiddle : (b₁.freeBlocks ++ ⟨pfn, order⟩ :: out).Perm (⟨pfn, order⟩ :: (b₁.freeBlocks ++ out)) :=
          List.perm_middle
        exact ((htiles.perm hmiddle).apart_of_mem hblk).not_has hin hp
      constructor
      · show Tiles (b₁.freeBlocks ++ _) b₁.pageCount F
        rw [hcount]
        exact htiles
      · intro blk hblk p hp
        have hblk' : blk ∈ b₁.freeBlocks := hblk
        simp only [markAllocated, if_neg (happart blk (List.mem_append_left _ hblk') p hp)]
        exact hb₁free blk hblk' p hp
      · intro blk hblk p hp
        rcases List.mem_cons.mp hblk with rfl | hblk
        · simp only [markAllocated, if_pos (show pfn ≤ p ∧ p < pfn + 2 ^ order from hp)]
        · simp only [markAllocated, if_neg (happart blk (List.mem_append_right _ hblk) p hp)]
          rw [hflags p]
          exact h.outFlags blk hblk p hp
      · exact (h.counted.takeBlock (by rw [hlist]; simp)).splitDown i
      · intro blk hblk
        rcases List.mem_cons.mp hblk with rfl | hblk
        · exact Nat.le_of_not_lt horder
        · exact h.orders blk hblk
    · exact fun p hp => hfree p (hsub p hp)

theorem Inv.perm {out' : List Block} (h : Inv b out F) (hp : out.Perm out') : Inv b out' F where
  tiles := h.tiles.perm (hp.append_left _)
  freeFlags := h.freeFlags
  outFlags := fun blk hblk => h.outFlags blk (hp.mem_iff.mpr hblk)
  counted := h.counted
  orders := fun blk hblk => h.orders blk (hp.mem_iff.mpr hblk)

/-- **`buddy_free`** of an outstanding block puts it back among the free ones. -/
theorem Inv.giveBack (h : Inv b (⟨pfn, k⟩ :: out) F) :
    Inv ((b.markFree pfn k).addBlock pfn k) out F := by
  have hk : k ≤ MAX_ORDER := h.orders ⟨pfn, k⟩ (by simp)
  have hpos := Nat.two_pow_pos k
  have hmiddle : (b.freeBlocks ++ ⟨pfn, k⟩ :: out).Perm (⟨pfn, k⟩ :: (b.freeBlocks ++ out)) :=
    List.perm_middle
  have hadd := freeBlocks_addBlock (b.markFree pfn k) pfn hk
  have hfirst : ((b.markFree pfn k).pages pfn).flags = .free := by
    simp only [markFree, if_pos (show pfn ≤ pfn ∧ pfn < pfn + 2 ^ k by omega)]
  have hflags := addBlock_flags hfirst k
  have happart : ∀ blk ∈ b.freeBlocks ++ out, ∀ p, blk.Has p →
      ((b.markFree pfn k).pages p).flags = (b.pages p).flags := by
    intro blk hblk p hp
    have hout : ¬(pfn ≤ p ∧ p < pfn + 2 ^ k) :=
      fun hin => ((h.tiles.perm hmiddle).apart_of_mem hblk).not_has hin hp
    simp only [markFree, if_neg hout]
  constructor
  · exact h.tiles.perm (hmiddle.trans (hadd.symm.append_right out))
  · intro blk hblk p hp
    rw [hflags p]
    rcases List.mem_cons.mp (hadd.mem_iff.mp hblk) with rfl | hblk
    · simp only [markFree, if_pos (show pfn ≤ p ∧ p < pfn + 2 ^ k from hp)]
    · rw [happart blk (List.mem_append_left _ hblk) p hp]
      exact h.freeFlags blk hblk p hp
  · intro blk hblk p hp
    rw [hflags p, happart blk (List.mem_append_right _ hblk) p hp]
    exact h.outFlags blk (List.mem_cons_of_mem _ hblk) p hp
  · have hmark : (b.markFree pfn k).Counted := h.counted
    exact hmark.addBlock pfn k
  · exact fun blk hblk => h.orders blk (List.mem_cons_of_mem _ hblk)

theorem addBlock_hhdmOffset (b : Buddy) (pfn k : ℕ) :
    (b.addBlock pfn k).hhdmOffset = b.hhdmOffset := rfl

theorem addBlock_pageCount (b : Buddy) (pfn k : ℕ) :
    (b.addBlock pfn k).pageCount = b.pageCount := rfl

theorem markFree_hhdmOffset (b : Buddy) (pfn k : ℕ) :
    (b.markFree pfn k).hhdmOffset = b.hhdmOffset := rfl

theorem markFree_pageCount (b : Buddy) (pfn k : ℕ) :
    (b.markFree pfn k).pageCount = b.pageCount := rfl

theorem free_hhdmOffset (b : Buddy) (vaddr k : ℕ) : (b.free vaddr k).hhdmOffset = b.hhdmOffset := by
  rw [free]
  split
  · rfl
  · split
    · rfl
    · rw [addBlock_hhdmOffset, markFree_hhdmOffset]

theorem free_pageCount (b : Buddy) (vaddr k : ℕ) : (b.free vaddr k).pageCount = b.pageCount := by
  rw [free]
  split
  · rfl
  · split
    · rfl
    · rw [addBlock_pageCount, markFree_pageCount]

/-! ### Addresses -/

/-- The direct map is not at address 0, and holds every page frame. -/
structure Mapped (b : Buddy) : Prop where
  pos : 0 < b.hhdmOffset
  fits : b.hhdmOffset + b.pageCount * PAGE_SIZE ≤ 2 ^ 64

theorem Mapped.vaddr_eq (h : b.Mapped) (hp : pfn < b.pageCount) :
    b.vaddr pfn = pfn * PAGE_SIZE + b.hhdmOffset := by
  have hfits := h.fits
  have hle : (pfn + 1) * PAGE_SIZE ≤ b.pageCount * PAGE_SIZE := Nat.mul_le_mul_right _ hp
  have hpage : 0 < PAGE_SIZE := by decide
  rw [Nat.add_mul, Nat.one_mul] at hle
  exact Nat.mod_eq_of_lt (by omega)

theorem Mapped.vaddr_ne_zero (h : b.Mapped) (hp : pfn < b.pageCount) : b.vaddr pfn ≠ 0 := by
  have hpos := h.pos
  rw [h.vaddr_eq hp]
  omega

/-- `buddy_free` finds the page frame `buddy_alloc` made the address of. -/
theorem Mapped.pfnOf_vaddr (h : b.Mapped) (hp : pfn < b.pageCount) : b.pfnOf (b.vaddr pfn) = pfn := by
  have hfits := h.fits
  have hle : (pfn + 1) * PAGE_SIZE ≤ b.pageCount * PAGE_SIZE := Nat.mul_le_mul_right _ hp
  have hpage : 0 < PAGE_SIZE := by decide
  have hpos := h.pos
  rw [Nat.add_mul, Nat.one_mul] at hle
  have hsum : pfn * PAGE_SIZE + b.hhdmOffset + 2 ^ 64 - b.hhdmOffset = pfn * PAGE_SIZE + 2 ^ 64 := by
    omega
  have hlt : pfn * PAGE_SIZE < 2 ^ 64 := by omega
  rw [pfnOf, h.vaddr_eq hp, hsum, Nat.add_mod_right, Nat.mod_eq_of_lt hlt, Nat.mul_div_cancel _ hpage]

/-! ### Boot -/

theorem fits_iff : b.fits i k = true ↔
    2 ^ k ∣ i ∧ i + 2 ^ k ≤ b.pageCount ∧ ∀ p, (⟨i, k⟩ : Block).Has p → (b.pages p).flags = .free := by
  simp only [fits, Bool.and_eq_true, decide_eq_true_eq, List.all_eq_true, List.mem_range, and_assoc,
    Nat.dvd_iff_mod_eq_zero]
  constructor
  · intro ⟨h1, h2, h3⟩
    refine ⟨h1, h2, fun p ⟨hp1, hp2⟩ => ?_⟩
    have hp1' : i ≤ p := hp1
    have hp2' : p < i + 2 ^ k := hp2
    have hflag := h3 (p - i) (by omega)
    rwa [Nat.add_sub_cancel' hp1'] at hflag
  · intro ⟨h1, h2, h3⟩
    refine ⟨h1, h2, fun j hj => h3 (i + j) ⟨Nat.le_add_right i j, ?_⟩⟩
    show i + j < i + 2 ^ k
    omega

/-- The order the grouping loop finds at a free page fits. -/
theorem groupOrder_fits (hi : i < b.pageCount) (hfree : (b.pages i).flags = .free) (k : ℕ) :
    b.groupOrder i k ≤ k ∧ b.fits i (b.groupOrder i k) = true := by
  induction k with
  | zero =>
    refine ⟨le_refl _, fits_iff.mpr ⟨one_dvd i, hi, fun p ⟨h1, h2⟩ => ?_⟩⟩
    have h1' : i ≤ p := h1
    have h2' : p < i + 1 := h2
    obtain rfl : p = i := by omega
    exact hfree
  | succ k ih =>
    by_cases hfit : b.fits i (k + 1) = true
    · rw [groupOrder, if_pos hfit]
      exact ⟨le_refl _, hfit⟩
    · rw [groupOrder, if_neg hfit]
      exact ⟨ih.1.trans (Nat.le_succ k), ih.2⟩

/-- After the grouping loop has passed the pages below `i`, the lists tile the free ones among them. -/
structure Grouped (b₀ b : Buddy) (i : ℕ) : Prop where
  tiles : Tiles b.freeBlocks b.pageCount fun p => p < i ∧ p < b.pageCount ∧ (b₀.pages p).flags = .free
  flags : ∀ p, (b.pages p).flags = (b₀.pages p).flags
  counted : b.Counted
  pageCount : b.pageCount = b₀.pageCount
  hhdmOffset : b.hhdmOffset = b₀.hhdmOffset

theorem Grouped.skip {b₀ : Buddy} (h : Grouped b₀ b i) (hi : (b.pages i).flags ≠ .free) :
    Grouped b₀ b (i + 1) where
  tiles := by
    apply h.tiles.congr
    intro p
    constructor
    · intro ⟨h1, h2⟩
      have hne : p ≠ i := by
        intro hp
        rw [h.flags, ← hp] at hi
        exact hi h2.2
      exact ⟨by omega, h2⟩
    · intro ⟨h1, h2⟩
      exact ⟨by omega, h2⟩
  flags := h.flags
  counted := h.counted
  pageCount := h.pageCount
  hhdmOffset := h.hhdmOffset

theorem Grouped.add {b₀ : Buddy} (h : Grouped b₀ b i) (hk : k ≤ MAX_ORDER) (hfit : b.fits i k = true) :
    Grouped b₀ (b.addBlock i k) (i + 2 ^ k) := by
  obtain ⟨hdvd, hin, hfree⟩ := fits_iff.mp hfit
  have hpos := Nat.two_pow_pos k
  have hfirst : (b.pages i).flags = .free := hfree i ⟨le_refl i, by show i < i + 2 ^ k; omega⟩
  constructor
  · show Tiles (b.addBlock i k).freeBlocks b.pageCount _
    apply Tiles.perm _ (freeBlocks_addBlock b i hk).symm
    apply h.tiles.snoc (fun p hp => hp.1) hdvd hin
    intro p
    constructor
    · intro ⟨h1, h2⟩
      by_cases hp : p < i
      · exact .inl ⟨hp, h2⟩
      · exact .inr ⟨Nat.le_of_not_lt hp, h1⟩
    · rintro (⟨h1, h2⟩ | hp)
      · exact ⟨by omega, h2⟩
      · have hp2 : p < i + 2 ^ k := hp.2
        refine ⟨hp2, ?_, ?_⟩
        · show p < b.pageCount
          omega
        · rw [← h.flags p]
          exact hfree p hp
  · intro p
    rw [addBlock_flags hfirst, h.flags]
  · exact h.counted.addBlock i k
  · exact h.pageCount
  · exact h.hhdmOffset

/-- The grouping loop reaches the end of the array. -/
theorem Grouped.group {b₀ : Buddy} (n : ℕ) (h : Grouped b₀ b i) (hn : b.pageCount ≤ i + n) :
    ∃ j, b₀.pageCount ≤ j ∧ Grouped b₀ (b.group n i) j := by
  induction n generalizing b i with
  | zero => exact ⟨i, h.pageCount ▸ hn, h⟩
  | succ n ih =>
    by_cases hi : b.pageCount ≤ i
    · rw [Buddy.group, if_pos hi]
      exact ⟨i, h.pageCount ▸ hi, h⟩
    · rw [Buddy.group, if_neg hi]
      by_cases hfree : (b.pages i).flags = .free
      · rw [if_neg (not_not.mpr hfree)]
        obtain ⟨hk, hfit⟩ := groupOrder_fits (Nat.lt_of_not_le hi) hfree MAX_ORDER
        have hpos := Nat.two_pow_pos (b.groupOrder i MAX_ORDER)
        apply ih (h.add hk hfit)
        show b.pageCount ≤ _
        omega
      · rw [if_pos hfree]
        exact ih (h.skip hfree) (by omega)

end Buddy

/-- Boot information with a direct map that holds every page frame, as the loader and `head.S` set it up. -/
structure Boot extends BootInfo where
  hhdm_pos : 0 < hhdmBase
  hhdm_fits : hhdmBase + toBootInfo.detectPageCount * PAGE_SIZE ≤ 2 ^ 64

/-- The pages that are free after `buddy_init`. -/
def Boot.FreeAtBoot (bi : Boot) (p : ℕ) : Prop :=
  p < (buddyInit bi.toBootInfo).pageCount ∧ ((buddyInit bi.toBootInfo).pages p).flags = .free

theorem marked_freeBlocks (bi : BootInfo) : bi.marked.freeBlocks = [] := by
  simp [Buddy.freeBlocks, Buddy.areaBlocks, BootInfo.marked]

/-- Before the grouping loop starts the lists are empty. -/
theorem marked_grouped (bi : BootInfo) : Buddy.Grouped bi.marked bi.marked 0 where
  tiles := by
    rw [marked_freeBlocks]
    exact Tiles.nil fun p hp => absurd hp.1 (Nat.not_lt_zero p)
  flags := fun _ => rfl
  counted := fun _ _ => rfl
  pageCount := rfl
  hhdmOffset := rfl

/-- **`buddy_init`** puts exactly the free pages on the lists. -/
theorem buddyInit_grouped (bi : BootInfo) :
    ∃ j, bi.marked.pageCount ≤ j ∧ Buddy.Grouped bi.marked (buddyInit bi) j := by
  have hcount : bi.marked.pageCount ≤ 0 + bi.detectPageCount := by
    rw [Nat.zero_add]
    exact le_refl bi.detectPageCount
  exact (marked_grouped bi).group bi.detectPageCount hcount

theorem buddyInit_mapped (bi : Boot) : (buddyInit bi.toBootInfo).Mapped := by
  obtain ⟨j, -, hg⟩ := buddyInit_grouped bi.toBootInfo
  constructor
  · rw [hg.hhdmOffset]
    exact bi.hhdm_pos
  · rw [hg.hhdmOffset, hg.pageCount]
    exact bi.hhdm_fits

theorem buddyInit_inv (bi : Boot) : (buddyInit bi.toBootInfo).Inv [] bi.FreeAtBoot := by
  obtain ⟨j, hj, hg⟩ := buddyInit_grouped bi.toBootInfo
  have htiles : Tiles (buddyInit bi.toBootInfo).freeBlocks (buddyInit bi.toBootInfo).pageCount
      bi.FreeAtBoot := by
    apply hg.tiles.congr
    intro p
    constructor
    · intro ⟨h1, h2⟩
      rw [hg.flags] at h2
      exact ⟨by rw [hg.pageCount] at h1; omega, h1, h2⟩
    · intro ⟨_, h1, h2⟩
      exact ⟨h1, by rw [hg.flags]; exact h2⟩
  constructor
  · rw [List.append_nil]
    exact htiles
  · intro blk hblk p hp
    exact ((htiles.cover p).mpr ⟨blk, hblk, hp⟩).2
  · simp
  · exact hg.counted
  · simp

/-! ### Runs -/

/-- The allocator and the addresses it has handed out, each with its order. -/
structure BuddyRun where
  buddy : Buddy
  out : List (ℕ × ℕ)

inductive BuddyCall where
  | alloc (order : ℕ)
  | free (vaddr order : ℕ)

/-- The block of an address that was handed out. -/
def Buddy.blockOf (b : Buddy) (a : ℕ × ℕ) : Block := ⟨b.pfnOf a.1, a.2⟩

/-- A call of the allocator; only what is outstanding is freed. -/
def BuddyRun.Step (s : BuddyRun) : BuddyCall → BuddyRun → Prop
  | .alloc order, s' =>
      s' = ⟨(s.buddy.alloc order).2,
        if (s.buddy.alloc order).1 = 0 then s.out else ((s.buddy.alloc order).1, order) :: s.out⟩
  | .free vaddr order, s' =>
      (vaddr, order) ∈ s.out ∧ s' = ⟨s.buddy.free vaddr order, s.out.erase (vaddr, order)⟩

/-- The state after `buddy_init`. -/
def BuddyRun.boot (bi : Boot) : BuddyRun := ⟨buddyInit bi.toBootInfo, []⟩

/-- The blocks handed out. -/
def BuddyRun.outBlocks (s : BuddyRun) : List Block := s.out.map s.buddy.blockOf

/-- What every run keeps. -/
structure BuddyRun.Inv (bi : Boot) (s : BuddyRun) : Prop where
  blocks : s.buddy.Inv s.outBlocks bi.FreeAtBoot
  mapped : s.buddy.Mapped
  nonzero : ∀ a ∈ s.out, a.1 ≠ 0

/-- What `buddy_alloc` answers: 0 exactly without a block, and otherwise the address of a block that was free. -/
theorem BuddyRun.Inv.alloc {bi : Boot} {s : BuddyRun} (h : s.Inv bi) (order : ℕ) :
    ((s.buddy.alloc order).1 = 0 ∧ (s.buddy.alloc order).2 = s.buddy ∧
      ∀ k, order ≤ k → k ≤ MAX_ORDER → (s.buddy.freeAreas k).freeList = []) ∨
    ((s.buddy.alloc order).1 ≠ 0 ∧ (s.buddy.alloc order).2.Mapped ∧
      (s.buddy.alloc order).2.hhdmOffset = s.buddy.hhdmOffset ∧
      (s.buddy.alloc order).2.Inv (s.buddy.blockOf ((s.buddy.alloc order).1, order) :: s.outBlocks)
        bi.FreeAtBoot ∧
      (∀ p, (s.buddy.blockOf ((s.buddy.alloc order).1, order)).Has p → (s.buddy.pages p).flags = .free) ∧
      ∃ k, order ≤ k ∧ k ≤ MAX_ORDER ∧ (s.buddy.freeAreas k).freeList ≠ []) := by
  rcases Buddy.alloc_spec h.blocks order with ⟨heq, hnone⟩ | ⟨pfn, b', heq, hinv, hcount, hoff, hfree, hk⟩
  · left
    rw [heq]
    exact ⟨rfl, rfl, hnone⟩
  · right
    have hpfn : pfn < s.buddy.pageCount := by
      have hlt := (⟨pfn, order⟩ : Block).start_lt_stop
      have hin := hinv.tiles.inside ⟨pfn, order⟩ (by simp)
      rw [hcount] at hin
      exact Nat.lt_of_lt_of_le hlt hin
    have hblock : s.buddy.blockOf (s.buddy.vaddr pfn, order) = ⟨pfn, order⟩ := by
      rw [Buddy.blockOf, h.mapped.pfnOf_vaddr hpfn]
    rw [heq]
    rw [hblock]
    refine ⟨h.mapped.vaddr_ne_zero hpfn, ⟨?_, ?_⟩, hoff, hinv, hfree, hk⟩
    · rw [hoff]
      exact h.mapped.pos
    · rw [hoff, hcount]
      exact h.mapped.fits

theorem Buddy.blockOf_congr {b b' : Buddy} (h : b'.hhdmOffset = b.hhdmOffset) :
    b'.blockOf = b.blockOf := by
  funext a
  simp only [blockOf, pfnOf, h]

/-- Freeing an outstanding block. -/
theorem BuddyRun.Inv.free {bi : Boot} {s : BuddyRun} (h : s.Inv bi) {a : ℕ × ℕ} (ha : a ∈ s.out) :
    BuddyRun.Inv bi ⟨s.buddy.free a.1 a.2, s.out.erase a⟩ := by
  have hperm : s.outBlocks.Perm (s.buddy.blockOf a :: (s.out.erase a).map s.buddy.blockOf) :=
    (List.perm_cons_erase ha).map s.buddy.blockOf
  have hblocks := h.blocks.perm hperm
  have hin := hblocks.tiles.inside (s.buddy.blockOf a) (by simp)
  have hlt := (s.buddy.blockOf a).start_lt_stop
  have hpfn : ¬s.buddy.pageCount ≤ s.buddy.pfnOf a.1 :=
    Nat.not_le.mpr (Nat.lt_of_lt_of_le hlt hin)
  have hfree : s.buddy.free a.1 a.2 =
      (s.buddy.markFree (s.buddy.pfnOf a.1) a.2).addBlock (s.buddy.pfnOf a.1) a.2 := by
    rw [Buddy.free, if_neg (h.nonzero a ha), if_neg hpfn]
  have hoff := s.buddy.free_hhdmOffset a.1 a.2
  refine ⟨?_, ?_, fun c hc => h.nonzero c (List.mem_of_mem_erase hc)⟩
  · show (s.buddy.free a.1 a.2).Inv ((s.out.erase a).map (s.buddy.free a.1 a.2).blockOf) _
    rw [Buddy.blockOf_congr hoff, hfree]
    exact hblocks.giveBack
  · constructor
    · rw [hoff]
      exact h.mapped.pos
    · rw [hoff, Buddy.free_pageCount]
      exact h.mapped.fits

theorem BuddyRun.Inv.step {bi : Boot} {s s' : BuddyRun} {c : BuddyCall} (h : s.Inv bi)
    (hstep : s.Step c s') : s'.Inv bi := by
  cases c with
  | alloc order =>
    obtain rfl := hstep
    rcases h.alloc order with ⟨hzero, hsame, -⟩ | ⟨hne, hmapped, hoff, hinv, -, -⟩
    · rw [hsame, if_pos hzero]
      exact h
    · rw [if_neg hne]
      refine ⟨?_, hmapped, ?_⟩
      · show (s.buddy.alloc order).2.Inv (List.map (s.buddy.alloc order).2.blockOf _) _
        rw [Buddy.blockOf_congr hoff, List.map_cons]
        exact hinv
      · intro a ha
        rcases List.mem_cons.mp ha with rfl | ha
        · exact hne
        · exact h.nonzero a ha
  | free vaddr order =>
    obtain ⟨hmem, rfl⟩ := hstep
    exact h.free hmem

/-- **The page allocator never hands out a page twice.**  After every sequence of `buddy_alloc` and of
`buddy_free` of what is outstanding, the free blocks and the outstanding ones tile the pages that were free
after boot, the flags and the counters agree with them, and the next `buddy_alloc` answers 0 exactly when no
block is large enough, and otherwise hands out pages that are free and in no outstanding block. -/
theorem buddy_tiles_of_run (bi : Boot) {s : BuddyRun} (h : Reaches BuddyRun.Step (BuddyRun.boot bi) s) :
    Tiles (s.buddy.freeBlocks ++ s.outBlocks) s.buddy.pageCount bi.FreeAtBoot ∧
    (∀ blk ∈ s.buddy.freeBlocks, ∀ p, blk.Has p → (s.buddy.pages p).flags = .free) ∧
    (∀ blk ∈ s.outBlocks, ∀ p, blk.Has p → (s.buddy.pages p).flags = .allocated) ∧
    (∀ k ≤ MAX_ORDER, (s.buddy.freeAreas k).freeCount = (s.buddy.freeAreas k).freeList.length) ∧
    ∀ order,
      ((s.buddy.alloc order).1 = 0 ↔
        ∀ k, order ≤ k → k ≤ MAX_ORDER → (s.buddy.freeAreas k).freeList = []) ∧
      ((s.buddy.alloc order).1 ≠ 0 →
        ∀ p, (s.buddy.blockOf ((s.buddy.alloc order).1, order)).Has p →
          (s.buddy.pages p).flags = .free ∧ ∀ blk ∈ s.outBlocks, ¬blk.Has p) := by
  have hinv : s.Inv bi := by
    apply h.invariant
    · exact ⟨buddyInit_inv bi, buddyInit_mapped bi, by simp [BuddyRun.boot]⟩
    · exact fun s c s' hi hstep => hi.step hstep
  refine ⟨hinv.blocks.tiles, hinv.blocks.freeFlags, hinv.blocks.outFlags, hinv.blocks.counted,
    fun order => ?_⟩
  rcases hinv.alloc order with ⟨hzero, -, hnone⟩ | ⟨hne, -, -, -, hfree, k, hk1, hk2, hk3⟩
  · exact ⟨⟨fun _ => hnone, fun _ => hzero⟩, fun hne => absurd hzero hne⟩
  · refine ⟨⟨fun hzero => absurd hzero hne, fun hnone => absurd (hnone k hk1 hk2) hk3⟩,
      fun _ p hp => ⟨hfree p hp, fun blk hblk hblkp => ?_⟩⟩
    have halloc := hinv.blocks.outFlags blk hblk p hblkp
    rw [hfree p hp] at halloc
    cases halloc

theorem hhdmBase_pos : 0 < 0xFFFF800000000000 := by decide

/-- Eight usable pages, the kernel image in the first two. -/
def smallBoot : Boot where
  mmap := [⟨0, 0x8000, .usable⟩]
  kernelPhysBase := 0
  kernelSize := 0x1234
  earlyBase := 0x2000
  earlyCurrent := 0x2000
  hhdmBase := 0xFFFF800000000000
  hhdm_pos := hhdmBase_pos
  hhdm_fits := by decide

/-- After `buddy_alloc(0)`. -/
def smallRun : BuddyRun :=
  ⟨((buddyInit smallBoot.toBootInfo).alloc 0).2, [(0xFFFF800000002000, 0)]⟩

/-- Page 2 is handed out from a split block of two pages. -/
theorem buddy_tiles_of_run_smallBoot : Reaches BuddyRun.Step (BuddyRun.boot smallBoot) smallRun ∧
    smallRun.outBlocks = [⟨2, 0⟩] ∧
      Tiles [⟨3, 0⟩, ⟨4, 2⟩, ⟨2, 0⟩] smallRun.buddy.pageCount smallBoot.FreeAtBoot := by
  have haddr : ((BuddyRun.boot smallBoot).buddy.alloc 0).1 = 0xFFFF800000002000 := by decide
  have hrun : Reaches BuddyRun.Step (BuddyRun.boot smallBoot) smallRun := by
    apply Reaches.next (a := .alloc 0) .start
    show smallRun = _
    rw [haddr, if_neg (by decide)]
    rfl
  have hout : smallRun.outBlocks = [⟨2, 0⟩] := by decide
  have hfree : smallRun.buddy.freeBlocks = [⟨3, 0⟩, ⟨4, 2⟩] := by decide
  obtain ⟨htiles, -⟩ := buddy_tiles_of_run smallBoot hrun
  rw [hout, hfree] at htiles
  exact ⟨hrun, hout, htiles⟩

end LizardOs.Mm
