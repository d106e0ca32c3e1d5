import LizardOs.Mm.SlabSafety

/-!
# The kernel heap

`kmalloc` and `kfree` over the slabs.  The first `kmalloc` sets up a cache for each size class; a cache that could
not be created stays null, and using it stops the kernel.  In a run the other users of the page allocator take
and give back blocks in between, so that it may run out at any time.
-/

namespace LizardOs.Mm

open LizardOs.Lib

namespace Heap

/-- The cache was created and is in use: it is the one of the nodes, or one of a size class. -/
def IsCache (h : Heap) (ca : ℕ) : Prop :=
  ca ≠ 0 ∧ (ca = h.kmallocNodeCache ∨ ∃ n ∈ h.kmallocCacheList, n.cache = ca)

/-- The slab is on a list of a cache. -/
def IsSlab (h : Heap) (s : ℕ) : Prop := ∃ ca, h.IsCache ca ∧ s ∈ (h.caches ca).slabs

/-- The bookkeeping of `kmalloc.c` fits the caches there are. -/
structure Booked (h : Heap) (cs : List ℕ) : Prop where
  nodeCache : h.kmallocNodeCache ≠ 0 →
    h.kmallocNodeCache ∈ cs ∧ (h.caches h.kmallocNodeCache).objectSize = SIZEOF_CACHE_NODE
  nodes : ∀ n ∈ h.kmallocCacheList, n.cache ≠ 0 → n.cache ∈ cs ∧ (h.caches n.cache).objectSize = n.size
  known : ∀ ca ∈ cs, h.IsCache ca

variable {bi : Boot} {h h' : Heap} {cs owned : List ℕ} {held : List Obj} {others : List (ℕ × ℕ)} {ca s : ℕ}

theorem Booked.isCache_iff (hb : Booked h cs) : h.IsCache ca ↔ ca ∈ cs := by
  constructor
  · rintro ⟨hne, rfl | ⟨n, hn, rfl⟩⟩
    · exact (hb.nodeCache hne).1
    · exact (hb.nodes n hn hne).1
  · exact hb.known ca

theorem Booked.isSlab_iff (hb : Booked h cs) (hi : Inv bi h cs owned held others) : h.IsSlab s ↔ s ∈ owned := by
  rw [hi.listed s]
  constructor
  · intro ⟨ca, hca, hs⟩
    exact ⟨ca, hb.isCache_iff.mp hca, hs⟩
  · intro ⟨ca, hca, hs⟩
    exact ⟨ca, hb.isCache_iff.mpr hca, hs⟩

theorem Booked.same (hb : Booked h cs) (hs : SameKmalloc h h') : Booked h' cs := by
  have hsize : ∀ ca, (h'.caches ca).objectSize = (h.caches ca).objectSize := by
    intro ca
    rw [hs.shape ca]
  refine ⟨?_, ?_, fun ca hca => ?_⟩
  · rw [hs.nodeCache, hsize]
    exact hb.nodeCache
  · rw [hs.cacheList]
    intro n hn
    rw [hsize]
    exact hb.nodes n hn
  · rw [IsCache, hs.nodeCache, hs.cacheList]
    exact hb.known ca hca

/-! ### Creating caches -/

/-- The heap with a new cache at `mem`. -/
def withCache (h : Heap) (mem size : ℕ) (buddy : Buddy) : Heap :=
  { h with buddy := buddy, caches := Function.update h.caches mem ⟨shapeFor size, 0, 0, [], [], []⟩ }

theorem withCache_of_ne {mem size : ℕ} {buddy : Buddy} (hne : ca ≠ mem) :
    (h.withCache mem size buddy).caches ca = h.caches ca := Function.update_of_ne hne ..

theorem withCache_self (h : Heap) (mem size : ℕ) (buddy : Buddy) :
    (h.withCache mem size buddy).caches mem = ⟨shapeFor size, 0, 0, [], [], []⟩ := Function.update_self ..

theorem Inv.withCache {mem size : ℕ} {buddy : Buddy} (hi : Inv bi h cs owned held others)
    (hsize : SIZEOF_SLAB_OBJ + size + SIZEOF_PTR ≤ 2 ^ 64)
    (hpages : Pages bi buddy ((mem, 0) :: (cs.map (fun ca => (ca, 0)) ++ owned.map h.slabBlock ++ others))) :
    mem ∉ cs ∧ Inv bi (h.withCache mem size buddy) (mem :: cs) owned held others := by
  have hfresh : mem ∉ cs := by
    intro hmem
    have hin := List.mem_map_of_mem (f := Prod.fst) (List.mem_append_left others (List.mem_append_left
      (owned.map h.slabBlock) (List.mem_map_of_mem (f := fun ca => (ca, 0)) hmem)))
    exact (List.nodup_cons.mp hpages.nodup).1 hin
  set h' := h.withCache mem size buddy with hh'
  have hself : h'.caches mem = ⟨shapeFor size, 0, 0, [], [], []⟩ := withCache_self ..
  have hother : ∀ ca ∈ cs, h'.caches ca = h.caches ca :=
    fun ca hca => withCache_of_ne fun hcm => hfresh (hcm ▸ hca)
  have hshape : ∀ s ∈ owned, h'.shapeOf s = h.shapeOf s := by
    intro s hs
    show (h'.caches (h.slabs s).cache).toCacheShape = _
    rw [hother _ (hi.cache_mem hs).1]
    rfl
  refine ⟨hfresh, ?_, fun ca hca => ?_, fun s => ?_, fun ca hca s hs => ?_, fun ca hca s hs => ?_, fun s hs => ?_,
    hi.slabOf, fun x hx => ?_, hi.distinct⟩
  · have hblocks : owned.map h'.slabBlock = owned.map h.slabBlock := by
      apply List.map_congr_left
      intro s hs
      rw [slabBlock, slabBlock, hshape s hs]
    rw [hblocks]
    exact hpages
  · rcases List.mem_cons.mp hca with rfl | hca
    · rw [hself]
      exact shapeFor_ok hsize
    · rw [hother ca hca]
      exact hi.shapes ca hca
  · rw [hi.listed s]
    constructor
    · rintro ⟨ca, hca, hs⟩
      exact ⟨ca, List.mem_cons_of_mem _ hca, by rw [hother ca hca]; exact hs⟩
    · rintro ⟨ca, hca, hs⟩
      rcases List.mem_cons.mp hca with rfl | hca
      · rw [hself] at hs
        cases hs
      · rw [hother ca hca] at hs
        exact ⟨ca, hca, hs⟩
  · rcases List.mem_cons.mp hca with rfl | hca
    · rw [hself] at hs
      cases hs
    · rw [hother ca hca] at hs
      exact hi.home ca hca s hs
  · rcases List.mem_cons.mp hca with rfl | hca
    · rw [hself] at hs
      rcases hs with hs | hs
      · cases hs
      · cases hs
    · rw [hother ca hca] at hs
      exact hi.ready ca hca s hs
  · have hc := hi.carved s hs
    refine ⟨hc.magic, hc.nodup, ?_, hc.free, hc.inUse, ?_⟩
    · rw [hshape s hs]
      exact hc.slots
    · rw [hshape s hs]
      exact hc.owner
  · have hp := hi.placed x hx
    have hs := hi.slabOf x hx
    refine ⟨hp.past, ?_, hp.taken, ?_⟩
    · rw [hshape _ hs]
      exact hp.slot
    · rw [hshape _ hs]
      exact hp.size

/-- **`kmemcache_create`** without a page changes nothing; otherwise it adds an empty cache. -/
theorem Inv.kmemcacheCreate {size mem : ℕ} (hi : Inv bi h cs owned held others)
    (hsize : SIZEOF_SLAB_OBJ + size + SIZEOF_PTR ≤ 2 ^ 64) (hr : h.kmemcacheCreate size = some (mem, h')) :
    (mem = 0 ∧ h' = h) ∨
    (mem ≠ 0 ∧ mem ∉ cs ∧ h' = h.withCache mem size (h.buddy.alloc 0).2 ∧ Inv bi h' (mem :: cs) owned held others) := by
  rw [Heap.kmemcacheCreate] at hr
  simp only [] at hr
  rcases hi.pages.alloc 0 with ⟨hzero, hsame⟩ | ⟨hne, hpages⟩
  · left
    rw [if_pos hzero, hsame] at hr
    obtain ⟨rfl, rfl⟩ := Prod.mk.inj (Option.some.inj hr)
    exact ⟨rfl, rfl⟩
  · right
    rw [if_neg hne] at hr
    split at hr
    · cases hr
    · obtain ⟨rfl, rfl⟩ := Prod.mk.inj (Option.some.inj hr)
      obtain ⟨hfresh, hinv⟩ := hi.withCache hsize hpages
      exact ⟨hne, hfresh, rfl, hinv⟩

/-- The heap is in order, with the objects of `live` held beside the nodes of `kmalloc.c`. -/
def Good (bi : Boot) (h : Heap) (live : List Obj) (others : List (ℕ × ℕ)) : Prop :=
  ∃ cs owned nodes, Inv bi h cs owned (nodes ++ live) others ∧ Booked h cs

variable {live : List Obj}

/-- The invariant does not look at the bookkeeping of `kmalloc.c`. -/
theorem Inv.congr (hi : Inv bi h cs owned held others) (hbuddy : h'.buddy = h.buddy) (hcaches : h'.caches = h.caches)
    (hslabs : h'.slabs = h.slabs) (hobj : h'.objSlab = h.objSlab) : Inv bi h' cs owned held others := by
  have hshape : h'.shapeOf = h.shapeOf := by
    funext s
    rw [shapeOf, shapeOf, hcaches, hslabs]
  have hblock : h'.slabBlock = h.slabBlock := by
    funext s
    rw [slabBlock, slabBlock, hshape]
  refine ⟨?_, ?_, ?_, ?_, ?_, fun s hs => ?_, hi.slabOf, fun x hx => ?_, hi.distinct⟩
  · rw [hbuddy, hblock]
    exact hi.pages
  · rw [hcaches]
    exact hi.shapes
  · rw [hcaches]
    exact hi.listed
  · rw [hcaches, hslabs]
    exact hi.home
  · rw [hcaches, hslabs]
    exact hi.ready
  · obtain ⟨h1, h2, h3, h4, h5, h6⟩ := hi.carved s hs
    constructor
    all_goals (try rw [hslabs])
    all_goals (try rw [hshape])
    all_goals (try rw [hobj])
    all_goals assumption
  · obtain ⟨h1, h2, h3, h4⟩ := hi.placed x hx
    constructor
    all_goals (try rw [hslabs])
    all_goals (try rw [hshape])
    all_goals assumption

theorem kmemcacheAlloc_zero (h : Heap) : h.kmemcacheAlloc 0 = none := by
  rw [Heap.kmemcacheAlloc, if_pos rfl]

/-- **`CREATE_CACHE`** keeps the heap in order, also when a cache stays null. -/
theorem Good.createCache {size : ℕ} (hg : Good bi h live others)
    (hsize : SIZEOF_SLAB_OBJ + size + SIZEOF_PTR ≤ 2 ^ 64) (hr : h.createCache size = some h') :
    Good bi h' live others := by
  obtain ⟨cs, owned, nodes, hi, hb⟩ := hg
  rw [Heap.createCache] at hr
  cases hnode : h.kmemcacheAlloc h.kmallocNodeCache with
  | none =>
    rw [hnode] at hr
    cases hr
  | some answer =>
    obtain ⟨node, h₁⟩ := answer
    rw [hnode] at hr
    simp only [] at hr
    have hne : h.kmallocNodeCache ≠ 0 := by
      intro hzero
      rw [hzero, kmemcacheAlloc_zero] at hnode
      cases hnode
    obtain ⟨hca, hobj⟩ := hb.nodeCache hne
    obtain ⟨hsame, ⟨hzero, -⟩ | ⟨hnz, owned₁, hi₁⟩⟩ := hi.kmemcacheAlloc hca (Nat.le_of_eq hobj.symm) hnode
    · rw [if_pos hzero] at hr
      cases hr
    have hb₁ := hb.same hsame
    rw [if_neg hnz] at hr
    cases hcreate : h₁.kmemcacheCreate size with
    | none =>
      rw [hcreate] at hr
      cases hr
    | some created =>
      obtain ⟨mem, h₂⟩ := created
      rw [hcreate] at hr
      obtain rfl := Option.some.inj hr
      rcases hi₁.kmemcacheCreate hsize hcreate with ⟨rfl, rfl⟩ | ⟨hmem, hfresh, rfl, hi₂⟩
      · refine ⟨cs, owned₁, ⟨node, SIZEOF_CACHE_NODE, h₂.objSlab (node - SIZEOF_SLAB_OBJ)⟩ :: nodes,
          hi₁.congr rfl rfl rfl rfl, hb₁.nodeCache, fun n hn hcache => ?_, fun ca hca' => ?_⟩
        · rcases List.mem_cons.mp hn with rfl | hn
          · exact absurd rfl hcache
          · exact hb₁.nodes n hn hcache
        · obtain ⟨h1, h2 | ⟨n, hn, h2⟩⟩ := hb₁.known ca hca'
          · exact ⟨h1, .inl h2⟩
          · exact ⟨h1, .inr ⟨n, List.mem_cons_of_mem _ hn, h2⟩⟩
      · have hother : ∀ ca ∈ cs, (h₁.withCache mem size (h₁.buddy.alloc 0).2).caches ca = h₁.caches ca :=
          fun ca hca' => withCache_of_ne fun hcm => hfresh (hcm ▸ hca')
        refine ⟨mem :: cs, owned₁, ⟨node, SIZEOF_CACHE_NODE, h₁.objSlab (node - SIZEOF_SLAB_OBJ)⟩ :: nodes,
          hi₂.congr rfl rfl rfl rfl, fun hnc => ?_, fun n hn hcache => ?_, fun ca hca' => ?_⟩
        · obtain ⟨h1, h2⟩ := hb₁.nodeCache hnc
          refine ⟨List.mem_cons_of_mem _ h1, ?_⟩
          show ((h₁.withCache mem size (h₁.buddy.alloc 0).2).caches h₁.kmallocNodeCache).objectSize = _
          rw [hother _ h1]
          exact h2
        · rcases List.mem_cons.mp hn with rfl | hn
          · refine ⟨List.mem_cons_self, ?_⟩
            show ((h₁.withCache mem size (h₁.buddy.alloc 0).2).caches mem).objectSize = size
            rw [withCache_self]
            rfl
          · obtain ⟨h1, h2⟩ := hb₁.nodes n hn hcache
            refine ⟨List.mem_cons_of_mem _ h1, ?_⟩
            show ((h₁.withCache mem size (h₁.buddy.alloc 0).2).caches n.cache).objectSize = _
            rw [hother _ h1]
            exact h2
        · rcases List.mem_cons.mp hca' with rfl | hca'
          · exact ⟨hmem, .inr ⟨_, List.mem_cons_self, rfl⟩⟩
          · obtain ⟨h1, h2 | ⟨n, hn, h2⟩⟩ := hb₁.known ca hca'
            · exact ⟨h1, .inl h2⟩
            · exact ⟨h1, .inr ⟨n, List.mem_cons_of_mem _ hn, h2⟩⟩

theorem Good.createCaches {sizes : List ℕ} (hsizes : ∀ size ∈ sizes, SIZEOF_SLAB_OBJ + size + SIZEOF_PTR ≤ 2 ^ 64) :
    ∀ {h : Heap}, Good bi h live others → sizes.foldlM Heap.createCache h = some h' → Good bi h' live others := by
  induction sizes with
  | nil =>
    intro h hg hr
    obtain rfl := Option.some.inj hr
    exact hg
  | cons size sizes ih =>
    intro h hg hr
    rw [List.foldlM_cons] at hr
    obtain ⟨h₁, hcreate, hrest⟩ := Option.bind_eq_some_iff.mp hr
    have hg₁ := hg.createCache (hsizes size List.mem_cons_self) hcreate
    exact ih (fun size hsize => hsizes size (List.mem_cons_of_mem _ hsize)) hg₁ hrest

/-! ### The first call -/

/-- Before the first `kmalloc` there is no cache. -/
def Unused (h : Heap) : Prop :=
  h.kmallocInitialized = false → h.kmallocNodeCache = 0 ∧ h.kmallocCacheList = []

/-- Without a cache there is no slab and nothing is held. -/
theorem Inv.empty_of_unused (hi : Inv bi h cs owned held others) (hb : Booked h cs) (hu : Unused h)
    (hun : h.kmallocInitialized = false) : cs = [] ∧ owned = [] ∧ held = [] := by
  obtain ⟨hnode, hlist⟩ := hu hun
  have hcs : cs = [] := by
    apply List.eq_nil_iff_forall_not_mem.mpr
    intro ca hca
    obtain ⟨hne, rfl | ⟨n, hn, -⟩⟩ := hb.known ca hca
    · exact hne hnode
    · rw [hlist] at hn
      cases hn
  have howned : owned = [] := by
    apply List.eq_nil_iff_forall_not_mem.mpr
    intro s hs
    obtain ⟨ca, hca, -⟩ := (hi.listed s).mp hs
    rw [hcs] at hca
    cases hca
  refine ⟨hcs, howned, ?_⟩
  apply List.eq_nil_iff_forall_not_mem.mpr
  intro x hx
  have hs := hi.slabOf x hx
  rw [howned] at hs
  cases hs

/-- **`kmalloc_init`** leaves the heap in order. -/
theorem Good.kmallocInit (hg : Good bi h live others) (hu : Unused h) (hun : h.kmallocInitialized = false)
    (hr : h.kmallocInit = some h') : Good bi h' live others ∧ h'.kmallocInitialized = true := by
  obtain ⟨cs, owned, nodes, hi, hb⟩ := hg
  obtain ⟨rfl, rfl, hheld⟩ := hi.empty_of_unused hb hu hun
  obtain ⟨hnode, hlist⟩ := hu hun
  have hi₀ : Inv bi { h with kmallocCacheList := [] } [] [] (nodes ++ live) others := hi.congr rfl rfl rfl rfl
  rw [Heap.kmallocInit] at hr
  cases hcreate : ({ h with kmallocCacheList := [] } : Heap).kmemcacheCreate SIZEOF_CACHE_NODE with
  | none =>
    rw [hcreate] at hr
    cases hr
  | some answer =>
    obtain ⟨mem, h₁⟩ := answer
    rw [hcreate] at hr
    simp only [] at hr
    have hg₁ : Good bi { h₁ with kmallocNodeCache := mem } live others := by
      rcases hi₀.kmemcacheCreate (by decide) hcreate with ⟨rfl, rfl⟩ | ⟨hmem, -, rfl, hi₁⟩
      · refine ⟨[], [], nodes, hi.congr rfl rfl rfl rfl, fun hne => absurd rfl hne, fun n hn => ?_, fun ca hca => ?_⟩
        · cases hn
        · cases hca
      · refine ⟨[mem], [], nodes, hi₁.congr rfl rfl rfl rfl, fun hne => ⟨List.mem_cons_self, ?_⟩, fun n hn => ?_,
          fun ca hca => ?_⟩
        · show ((withCache { h with kmallocCacheList := [] } mem SIZEOF_CACHE_NODE (h.buddy.alloc 0).2).caches
            mem).objectSize = SIZEOF_CACHE_NODE
          rw [withCache_self]
          rfl
        · cases hn
        · obtain rfl := List.mem_singleton.mp hca
          exact ⟨hmem, .inl rfl⟩
    cases hall : KMALLOC_SIZES.foldlM Heap.createCache { h₁ with kmallocNodeCache := mem } with
    | none =>
      rw [hall] at hr
      cases hr
    | some h₂ =>
      rw [hall] at hr
      obtain rfl := Option.some.inj hr
      obtain ⟨cs₂, owned₂, nodes₂, hi₂, hb₂⟩ := hg₁.createCaches (by decide) hall
      exact ⟨⟨cs₂, owned₂, nodes₂, hi₂.congr rfl rfl rfl rfl, hb₂.nodeCache, hb₂.nodes, hb₂.known⟩, rfl⟩

/-- A `kmalloc` begins with a heap that is set up. -/
theorem Good.kmallocReady (hg : Good bi h live others) (hu : Unused h) (hr : h.kmallocReady = some h') :
    Good bi h' live others ∧ h'.kmallocInitialized = true := by
  rw [Heap.kmallocReady] at hr
  split at hr
  · rename_i hinit
    obtain rfl := Option.some.inj hr
    exact ⟨hg, hinit⟩
  · rename_i hinit
    exact hg.kmallocInit hu (Bool.eq_false_iff.mpr hinit) hr

/-! ### `kmalloc` and `kfree` -/

theorem mem_of_bestNode {l : List CacheNode} {size : ℕ} {n : CacheNode} (hbest : bestNode l size = some n) :
    n ∈ l ∧ size ≤ n.size := by
  -- the search keeps a node it has seen and that is large enough
  have hall : ∀ (l : List CacheNode) (best : Option CacheNode),
      l.foldl (fun best node => if size ≤ node.size ∧ best.all (fun b => decide (node.size < b.size)) = true then
        some node else best) best = some n → best = some n ∨ (n ∈ l ∧ size ≤ n.size) := by
    intro l
    induction l with
    | nil => exact fun best heq => .inl heq
    | cons node l ih =>
      intro best heq
      rw [List.foldl_cons] at heq
      rcases ih _ heq with hnow | ⟨hmem, hsize⟩
      · split at hnow
        · rename_i hfits
          obtain rfl := Option.some.inj hnow
          exact .inr ⟨List.mem_cons_self, hfits.1⟩
        · exact .inl hnow
      · exact .inr ⟨List.mem_cons_of_mem _ hmem, hsize⟩
  exact (hall l none hbest).resolve_left (by simp)

theorem heldIn_perm {held' : List Obj} (hp : held.Perm held') (s : ℕ) : heldIn held s = heldIn held' s :=
  (hp.filter _).length_eq

/-- The order of the held objects does not matter. -/
theorem Inv.perm {held' : List Obj} (hi : Inv bi h cs owned held others) (hp : held.Perm held') :
    Inv bi h cs owned held' others := by
  refine ⟨hi.pages, hi.shapes, hi.listed, hi.home, hi.ready, fun s hs => ?_,
    fun x hx => hi.slabOf x (hp.mem_iff.mpr hx), fun x hx => hi.placed x (hp.mem_iff.mpr hx),
    (hp.map Obj.ptr).nodup_iff.mp hi.distinct⟩
  have hc := hi.carved s hs
  refine ⟨hc.magic, hc.nodup, hc.slots, hc.free, ?_, hc.owner⟩
  rw [← heldIn_perm hp]
  exact hc.inUse

/-- **`kmalloc`** answers 0 only when `buddy_alloc` does for the size class, and otherwise an object that is new
among the live ones. -/
theorem Good.kmalloc {size p : ℕ} (hg : Good bi h live others) (hu : Unused h) (hr : h.kmalloc size = some (p, h')) :
    h'.kmallocInitialized = true ∧
    ((p = 0 ∧ Good bi h' live others ∧ ∃ h₁ n, h.kmallocReady = some h₁ ∧ n ∈ h₁.kmallocCacheList ∧
        size ≤ n.size ∧ (h₁.buddy.alloc (h₁.caches n.cache).order).1 = 0) ∨
      (p ≠ 0 ∧ Good bi h' (⟨p, size, h'.objSlab (p - SIZEOF_SLAB_OBJ)⟩ :: live) others)) := by
  rw [Heap.kmalloc] at hr
  cases hready : h.kmallocReady with
  | none =>
    rw [hready] at hr
    cases hr
  | some h₁ =>
    rw [hready] at hr
    simp only [] at hr
    obtain ⟨⟨cs, owned, nodes, hi, hb⟩, hinit⟩ := hg.kmallocReady hu hready
    cases hbest : bestNode h₁.kmallocCacheList size with
    | none =>
      rw [hbest] at hr
      cases hr
    | some n =>
      rw [hbest] at hr
      simp only [] at hr
      obtain ⟨hn, hsize⟩ := mem_of_bestNode hbest
      have hne : n.cache ≠ 0 := by
        intro hzero
        rw [hzero, kmemcacheAlloc_zero] at hr
        cases hr
      obtain ⟨hca, hobj⟩ := hb.nodes n hn hne
      rw [← hobj] at hsize
      obtain ⟨hsame, hcases⟩ := hi.kmemcacheAlloc hca hsize hr
      refine ⟨hsame.initialized.trans hinit, ?_⟩
      rcases hcases with ⟨hzero, hfail, hi'⟩ | ⟨hnz, owned', hi'⟩
      · rw [hobj] at hsize
        exact .inl ⟨hzero, ⟨cs, owned, nodes, hi', hb.same hsame⟩, h₁, n, rfl, hn, hsize, hfail⟩
      · refine .inr ⟨hnz, cs, owned', nodes, ?_, hb.same hsame⟩
        exact hi'.perm List.perm_middle.symm

/-- **`kfree`** of a live pointer goes through, and the object is on the free list of its slab again or the slab,
then empty, is given back. -/
theorem Good.kfree {x : Obj} (hg : Good bi h live others) (hu : Unused h) (hx : x ∈ live) :
    ∃ h', h.kfree x.ptr = some h' ∧ h'.kmallocInitialized = true ∧ Good bi h' (live.erase x) others ∧
      ((h'.IsSlab x.slab ∧ (h'.slabs x.slab).freelist = x.head :: (h.slabs x.slab).freelist) ∨
        (¬h'.IsSlab x.slab ∧ ∀ y ∈ live.erase x, y.slab ≠ x.slab)) := by
  obtain ⟨cs, owned, nodes, hi, hb⟩ := hg
  have hinit : h.kmallocInitialized = true := by
    by_contra hun
    obtain ⟨-, -, hheld⟩ := hi.empty_of_unused hb hu (Bool.eq_false_iff.mpr hun)
    have hmem : x ∈ nodes ++ live := List.mem_append_right _ hx
    rw [hheld] at hmem
    cases hmem
  have hperm : (nodes ++ live).Perm (x :: (nodes ++ live.erase x)) :=
    ((List.perm_cons_erase hx).append_left nodes).trans List.perm_middle
  have hi₁ := hi.perm hperm
  have hs := hi₁.slabOf x List.mem_cons_self
  have hp := hi₁.placed x List.mem_cons_self
  have hmagic : (h.slabs (h.objSlab (x.ptr - SIZEOF_SLAB_OBJ))).magic = SLAB_MAGIC := by
    have howner : h.objSlab x.head = x.slab := (hi₁.carved x.slab hs).owner x.head hp.slot
    rw [Obj.head] at howner
    rw [howner]
    exact (hi₁.carved x.slab hs).magic
  have hne : x.ptr ≠ 0 := by
    have hpast := hp.past
    rw [SIZEOF_SLAB_OBJ] at hpast
    omega
  obtain ⟨h', owned', hfree, hsame, hi', hcases⟩ := hi₁.kmemcacheFree
  have hb' := hb.same hsame
  refine ⟨h', ?_, hsame.initialized.trans hinit, ⟨cs, owned', nodes, hi', hb'⟩, ?_⟩
  · rw [Heap.kfree, if_neg hne, if_neg (by rw [hinit]; decide), if_pos hmagic]
    exact hfree
  · rw [hb'.isSlab_iff hi']
    rcases hcases with ⟨hmem, hlist⟩ | ⟨hmem, hnone⟩
    · exact .inl ⟨hmem, hlist⟩
    · exact .inr ⟨hmem, fun y hy => hnone y (List.mem_append_right _ hy)⟩

/-! ### The other users of the page allocator -/

theorem Inv.withPages {buddy : Buddy} {others' : List (ℕ × ℕ)} (hi : Inv bi h cs owned held others)
    (hpages : Pages bi buddy (cs.map (fun ca => (ca, 0)) ++ owned.map h.slabBlock ++ others')) :
    Inv bi { h with buddy := buddy } cs owned held others' := by
  refine ⟨hpages, hi.shapes, hi.listed, hi.home, hi.ready, fun s hs => ?_, hi.slabOf, fun x hx => ?_, hi.distinct⟩
  · have hc := hi.carved s hs
    exact ⟨hc.magic, hc.nodup, hc.slots, hc.free, hc.inUse, hc.owner⟩
  · have hp := hi.placed x hx
    exact ⟨hp.past, hp.slot, hp.taken, hp.size⟩

theorem Inv.buddyAlloc (hi : Inv bi h cs owned held others) (order : ℕ) :
    Inv bi { h with buddy := (h.buddy.alloc order).2 } cs owned held
      (if (h.buddy.alloc order).1 = 0 then others else ((h.buddy.alloc order).1, order) :: others) := by
  apply hi.withPages
  rcases hi.pages.alloc order with ⟨hzero, hsame⟩ | ⟨hne, hpages⟩
  · rw [if_pos hzero, hsame]
    exact hi.pages
  · rw [if_neg hne]
    exact hpages.perm List.perm_middle.symm

theorem Inv.buddyFree {a : ℕ × ℕ} (hi : Inv bi h cs owned held others) (ha : a ∈ others) :
    Inv bi { h with buddy := h.buddy.free a.1 a.2 } cs owned held (others.erase a) := by
  apply hi.withPages
  apply Pages.free
  exact hi.pages.perm (((List.perm_cons_erase ha).append_left _).trans List.perm_middle)

theorem Good.buddyAlloc (hg : Good bi h live others) (order : ℕ) :
    Good bi { h with buddy := (h.buddy.alloc order).2 } live
      (if (h.buddy.alloc order).1 = 0 then others else ((h.buddy.alloc order).1, order) :: others) := by
  obtain ⟨cs, owned, nodes, hi, hb⟩ := hg
  exact ⟨cs, owned, nodes, hi.buddyAlloc order, hb.nodeCache, hb.nodes, hb.known⟩

theorem Good.buddyFree {a : ℕ × ℕ} (hg : Good bi h live others) (ha : a ∈ others) :
    Good bi { h with buddy := h.buddy.free a.1 a.2 } live (others.erase a) := by
  obtain ⟨cs, owned, nodes, hi, hb⟩ := hg
  exact ⟨cs, owned, nodes, hi.buddyFree ha, hb.nodeCache, hb.nodes, hb.known⟩

/-! ### Where the held objects lie -/

variable {t o o' : ℕ} {x y : Obj}

/-- The range of an object is behind the headers of its slab and its own, and inside the block of the slab. -/
theorem Inv.obj_inside (hi : Inv bi h cs owned held others) (hx : x ∈ held) :
    x.slab + SIZEOF_SLAB ≤ x.head ∧ x.ptr = x.head + SIZEOF_SLAB_OBJ ∧
      x.ptr + x.size ≤ x.head + (h.shapeOf x.slab).realObjectSize ∧
      x.head + (h.shapeOf x.slab).realObjectSize ≤ x.slab + (h.shapeOf x.slab).slabSize := by
  have hs := hi.slabOf x hx
  have hp := hi.placed x hx
  obtain ⟨hafter, hend⟩ := hi.slot_inside hs hp.slot
  have hroom := (hi.shape_ok hs).room
  have hsize := hp.size
  have hptr : x.ptr = x.head + SIZEOF_SLAB_OBJ := (Nat.sub_add_cancel hp.past).symm
  refine ⟨hafter, hptr, ?_, hend⟩
  rw [hptr]
  omega

/-- Two objects of the slabs are apart, with their headers. -/
theorem Inv.slots_apart (hi : Inv bi h cs owned held others) (hs : s ∈ owned) (ht : t ∈ owned)
    (ho : o ∈ (h.shapeOf s).slots s) (ho' : o' ∈ (h.shapeOf t).slots t) (hne : o ≠ o') :
    RangesApart o (h.shapeOf s).realObjectSize o' (h.shapeOf t).realObjectSize := by
  by_cases hst : s = t
  · subst hst
    exact strides_apart ho ho' hne
  · obtain ⟨h1, h2⟩ := hi.slot_inside hs ho
    obtain ⟨h3, h4⟩ := hi.slot_inside ht ho'
    exact (hi.slabs_apart hs ht hst).mono ((Nat.le_add_right _ _).trans h1) h2 ((Nat.le_add_right _ _).trans h3) h4

/-- Held objects do not overlap. -/
theorem Inv.objs_apart (hi : Inv bi h cs owned held others) (hx : x ∈ held) (hy : y ∈ held) (hne : x.ptr ≠ y.ptr) :
    RangesApart x.ptr x.size y.ptr y.size := by
  obtain ⟨-, hxp, hxe, -⟩ := hi.obj_inside hx
  obtain ⟨-, hyp, hye, -⟩ := hi.obj_inside hy
  have hheads : x.head ≠ y.head := by
    intro heq
    rw [hxp, hyp, heq] at hne
    exact hne rfl
  have hapart := hi.slots_apart (hi.slabOf x hx) (hi.slabOf y hy) (hi.placed x hx).slot (hi.placed y hy).slot hheads
  refine hapart.mono ?_ hxe ?_ hye
  · omega
  · omega

/-- A held object does not overlap the header of a slab. -/
theorem Inv.slab_header_apart (hi : Inv bi h cs owned held others) (hx : x ∈ held) (ht : t ∈ owned) :
    RangesApart x.ptr x.size t SIZEOF_SLAB := by
  obtain ⟨hafter, hxp, hxe, hend⟩ := hi.obj_inside hx
  by_cases hst : x.slab = t
  · right
    rw [← hst]
    omega
  · have hpage : SIZEOF_SLAB ≤ (h.shapeOf t).slabSize := by
      have hsize : PAGE_SIZE ≤ (h.shapeOf t).slabSize := Nat.le_mul_of_pos_right _ (Nat.two_pow_pos _)
      rw [PAGE_SIZE] at hsize
      rw [SIZEOF_SLAB]
      omega
    refine (hi.slabs_apart (hi.slabOf x hx) ht hst).mono ?_ ?_ (Nat.le_refl t) ?_
    · omega
    · omega
    · omega

/-- A held object does not overlap the header of an object. -/
theorem Inv.obj_header_apart (hi : Inv bi h cs owned held others) (hx : x ∈ held) (ht : t ∈ owned)
    (ho : o ∈ (h.shapeOf t).slots t) : RangesApart x.ptr x.size o SIZEOF_SLAB_OBJ := by
  obtain ⟨-, hxp, hxe, -⟩ := hi.obj_inside hx
  by_cases hhead : x.head = o
  · right
    omega
  · have hroom := (hi.shape_ok ht).room
    have hapart := hi.slots_apart (hi.slabOf x hx) ht (hi.placed x hx).slot ho hhead
    refine hapart.mono ?_ hxe (Nat.le_refl o) ?_
    · omega
    · omega

/-- The block of a slab and the block of another user are apart. -/
theorem Inv.other_apart {a : ℕ × ℕ} (hi : Inv bi h cs owned held others) (hs : s ∈ owned) (ha : a ∈ others) :
    RangesApart s (h.shapeOf s).slabSize a.1 (blockSize a.2) := by
  have hpair := (List.pairwise_append.mp hi.pages.pairwise).2.2
  exact hpair (h.slabBlock s) (List.mem_append_right _ (List.mem_map_of_mem hs)) a ha

/-- The pages of a slab are allocated. -/
theorem Inv.slab_allocated (hi : Inv bi h cs owned held others) (hs : s ∈ owned) {p : ℕ}
    (hp : (h.buddy.blockOf (h.slabBlock s)).Has p) : (h.buddy.pages p).flags = .allocated :=
  hi.pages.run.blocks.outFlags _ (List.mem_map_of_mem (slabBlock_mem cs others hs)) p hp

end Heap

/-! ### Runs -/

instance lawfulBEq_pair : LawfulBEq (ℕ × ℕ) := inferInstance

/-- The heap with the objects that are live and the blocks that other users of the page allocator have. -/
structure HeapRun where
  heap : Heap
  live : List Obj
  others : List (ℕ × ℕ)

inductive HeapCall where
  | kmalloc (size : ℕ)
  | kfree (ptr : ℕ)
  | buddyAlloc (order : ℕ)
  | buddyFree (vaddr order : ℕ)

namespace HeapRun

/-- The largest size class. -/
def MAX_SIZE : ℕ := 131072

/-- A call.  Only live pointers and blocks that are outstanding are freed, and nothing follows when the kernel has
stopped. -/
def exec (s : HeapRun) : HeapCall → Option HeapRun
  | .kmalloc size =>
      if MAX_SIZE < size then none
      else
        match s.heap.kmalloc size with
        | none => none
        | some (p, h) =>
            some ⟨h, if p = 0 then s.live else ⟨p, size, h.objSlab (p - SIZEOF_SLAB_OBJ)⟩ :: s.live, s.others⟩
  | .kfree ptr =>
      match s.live.find? fun x => decide (x.ptr = ptr) with
      | none => none
      | some x =>
          match s.heap.kfree ptr with
          | none => none
          | some h => some ⟨h, s.live.erase x, s.others⟩
  | .buddyAlloc order =>
      some ⟨{ s.heap with buddy := (s.heap.buddy.alloc order).2 }, s.live,
        if (s.heap.buddy.alloc order).1 = 0 then s.others else ((s.heap.buddy.alloc order).1, order) :: s.others⟩
  | .buddyFree vaddr order =>
      if (vaddr, order) ∈ s.others then
        some ⟨{ s.heap with buddy := s.heap.buddy.free vaddr order }, s.live, s.others.erase (vaddr, order)⟩
      else none

def Step (s : HeapRun) (c : HeapCall) (s' : HeapRun) : Prop := s.exec c = some s'

/-- What memory holds before `slab.c` writes to it. -/
structure Memory where
  caches : ℕ → KmemCache
  slabs : ℕ → Slab
  objSlab : ℕ → ℕ

/-- The state after `buddy_init`: the heap is not set up, and memory holds anything. -/
def boot (bi : Boot) (m : Memory) : HeapRun :=
  ⟨⟨buddyInit bi.toBootInfo, m.caches, m.slabs, m.objSlab, false, 0, []⟩, [], []⟩

/-- What every run keeps. -/
structure Inv (bi : Boot) (s : HeapRun) : Prop where
  good : s.heap.Good bi s.live s.others
  unused : s.heap.Unused

variable {bi : Boot} {s s' : HeapRun}

/-- At boot there is no cache, and nothing is held. -/
theorem boot_heap (bi : Boot) (m : Memory) : Heap.Inv bi (boot bi m).heap [] [] [] [] := by
  refine ⟨⟨⟨buddyInit_inv bi, buddyInit_mapped bi, ?_⟩, ?_⟩, ?_, fun s => ?_, ?_, ?_, ?_, ?_, ?_, ?_⟩
  all_goals simp

theorem boot_inv (bi : Boot) (m : Memory) : (boot bi m).Inv bi :=
  ⟨⟨[], [], [], boot_heap bi m, fun hne => absurd rfl hne, by simp [boot], by simp⟩, fun _ => ⟨rfl, rfl⟩⟩

theorem Inv.step {c : HeapCall} (hi : s.Inv bi) (hstep : s.Step c s') : s'.Inv bi := by
  rw [Step] at hstep
  cases c with
  | kmalloc size =>
    simp only [exec] at hstep
    split at hstep
    · cases hstep
    · split at hstep
      · cases hstep
      · rename_i p h hr
        obtain rfl := Option.some.inj hstep
        obtain ⟨hinit, ⟨hzero, hg, -⟩ | ⟨hne, hg⟩⟩ := hi.good.kmalloc hi.unused hr
        · rw [if_pos hzero]
          exact ⟨hg, fun hun => absurd (hinit.symm.trans hun) (by decide)⟩
        · rw [if_neg hne]
          exact ⟨hg, fun hun => absurd (hinit.symm.trans hun) (by decide)⟩
  | kfree ptr =>
    simp only [exec] at hstep
    split at hstep
    · cases hstep
    · rename_i x hfind
      have hx : x ∈ s.live := List.mem_of_find?_eq_some hfind
      have hptr : x.ptr = ptr := by simpa using List.find?_some hfind
      obtain ⟨h', hfree, hinit, hg, -⟩ := hi.good.kfree hi.unused hx
      rw [← hptr, hfree] at hstep
      obtain rfl := Option.some.inj hstep
      exact ⟨hg, fun hun => absurd (hinit.symm.trans hun) (by decide)⟩
  | buddyAlloc order =>
    obtain rfl := Option.some.inj hstep
    exact ⟨hi.good.buddyAlloc order, hi.unused⟩
  | buddyFree vaddr order =>
    simp only [exec] at hstep
    split at hstep
    · rename_i hmem
      obtain rfl := Option.some.inj hstep
      exact ⟨hi.good.buddyFree hmem, hi.unused⟩
    · cases hstep

/-- What the callers of the heap rely on. -/
structure Contract (s : HeapRun) : Prop where
  /-- Live objects share no byte. -/
  apart : s.live.Pairwise fun x y => RangesApart x.ptr x.size y.ptr y.size
  /-- A live object lies inside the block of its slab, which only this slab owns and which is allocated. -/
  inside : ∀ x ∈ s.live, s.heap.IsSlab x.slab ∧ x.slab ≤ x.ptr ∧
    x.ptr + x.size ≤ x.slab + blockSize (s.heap.slabBlock x.slab).2 ∧
    (∀ p, (s.heap.buddy.blockOf (s.heap.slabBlock x.slab)).Has p → (s.heap.buddy.pages p).flags = .allocated) ∧
    (∀ t, s.heap.IsSlab t → t ≠ x.slab → RangesApart x.slab (blockSize (s.heap.slabBlock x.slab).2) t
      (blockSize (s.heap.slabBlock t).2)) ∧
    ∀ a ∈ s.others, RangesApart x.slab (blockSize (s.heap.slabBlock x.slab).2) a.1 (blockSize a.2)
  /-- A live object overlaps no header of a slab and none of an object, free or not. -/
  headers : ∀ x ∈ s.live, ∀ t, s.heap.IsSlab t → RangesApart x.ptr x.size t SIZEOF_SLAB ∧
    ∀ o ∈ (s.heap.shapeOf t).slots t, RangesApart x.ptr x.size o SIZEOF_SLAB_OBJ
  /-- `kmalloc` answers null only when `buddy_alloc` does for the slab it needs. -/
  null : ∀ size ≤ MAX_SIZE, ∀ h', s.heap.kmalloc size = some (0, h') →
    ∃ h₁ n, s.heap.kmallocReady = some h₁ ∧ n ∈ h₁.kmallocCacheList ∧ size ≤ n.size ∧
      (h₁.buddy.alloc (h₁.caches n.cache).order).1 = 0
  /-- `kfree` of a live pointer puts the object back in its slab, which is given back only when it is empty. -/
  freed : ∀ x ∈ s.live, ∃ h', s.heap.kfree x.ptr = some h' ∧
    ((h'.IsSlab x.slab ∧ (h'.slabs x.slab).freelist = x.head :: (s.heap.slabs x.slab).freelist) ∨
      (¬h'.IsSlab x.slab ∧ ∀ y ∈ s.live.erase x, y.slab ≠ x.slab))

theorem Inv.contract (hi : s.Inv bi) : s.Contract := by
  obtain ⟨cs, owned, nodes, hinv, hb⟩ := hi.good
  have hheld : ∀ x ∈ s.live, x ∈ nodes ++ s.live := fun x hx => List.mem_append_right _ hx
  have hslab : ∀ t, s.heap.IsSlab t ↔ t ∈ owned := fun t => hb.isSlab_iff hinv
  refine ⟨?_, fun x hx => ?_, fun x hx t ht => ?_, fun size _ h' hr => ?_, fun x hx => ?_⟩
  · have hdistinct := hinv.distinct
    rw [List.map_append] at hdistinct
    have hlive := List.pairwise_map.mp (List.nodup_append.mp hdistinct).2.1
    exact hlive.imp_of_mem fun hx hy hne => hinv.objs_apart (hheld _ hx) (hheld _ hy) hne
  · have hs := hinv.slabOf x (hheld x hx)
    obtain ⟨hafter, hptr, hend, hblock⟩ := hinv.obj_inside (hheld x hx)
    refine ⟨(hslab x.slab).mpr hs, ?_, hend.trans hblock, fun p hp => hinv.slab_allocated hs hp,
      fun t ht hne => hinv.slabs_apart hs ((hslab t).mp ht) (Ne.symm hne), fun a ha => hinv.other_apart hs ha⟩
    omega
  · have hmem := (hslab t).mp ht
    exact ⟨hinv.slab_header_apart (hheld x hx) hmem, fun o ho => hinv.obj_header_apart (hheld x hx) hmem ho⟩
  · obtain ⟨-, ⟨-, -, hfail⟩ | ⟨hne, -⟩⟩ := hi.good.kmalloc hi.unused hr
    · exact hfail
    · exact absurd rfl hne
  · obtain ⟨h', hfree, -, -, hback⟩ := hi.good.kfree hi.unused hx
    exact ⟨h', hfree, hback⟩

/-- **The heap keeps its contract** in every run, whatever the other users of the page allocator do. -/
theorem contract_of_run (bi : Boot) (m : Memory) {s : HeapRun} (h : Reaches Step (boot bi m) s) : s.Contract := by
  have hinv : s.Inv bi := by
    apply h.invariant
    · exact boot_inv bi m
    · exact fun s c s' hi hstep => hi.step hstep
  exact hinv.contract

/-- A small machine on which pages 2, 4, 7 and 16 are free after `buddy_init`. -/
def fourPages : Boot where
  mmap := [⟨0, 0x5000, .usable⟩, ⟨0x7000, 0x8000, .usable⟩, ⟨0x10000, 0x11000, .usable⟩]
  kernelPhysBase := 0
  kernelSize := 0x1234
  earlyBase := 0x3000
  earlyCurrent := 0x4000
  hhdmBase := 0xFFFF800000000000
  hhdm_pos := hhdmBase_pos
  hhdm_fits := by decide

def zeroMemory : Memory := ⟨fun _ => ⟨⟨0, 0, 0, 0⟩, 0, 0, [], [], []⟩, fun _ => ⟨0, 0, 0, 0, []⟩, fun _ => 0⟩

/-- The state after `buddy_init`, with the free list written out. -/
def fourPagesBoot : HeapRun :=
  ⟨⟨(((fourPages.marked.addBlock 2 0).addBlock 4 0).addBlock 7 0).addBlock 16 0, zeroMemory.caches, zeroMemory.slabs,
    zeroMemory.objSlab, false, 0, []⟩, [], []⟩

/-- While another user has the first page `kmalloc` fails; once it is back, three objects share a slab and one of them
is freed. -/
def fourPagesCalls : List HeapCall :=
  [.buddyAlloc 0, .kmalloc 5, .buddyFree 0xFFFF800000010000 0, .kmalloc 5, .kmalloc 7, .kmalloc 8,
    .kfree 0xFFFF800000010048]

def fourPagesRun : HeapRun := runLast exec fourPagesBoot fourPagesCalls

/-- Two objects are live after that, eight bytes and seven, a header apart. -/
theorem contract_of_run_fourPages : Reaches Step (boot fourPages zeroMemory) fourPagesRun ∧
    fourPagesRun.live = [⟨0xFFFF800000010078, 8, 0xFFFF800000010000⟩, ⟨0xFFFF800000010060, 7, 0xFFFF800000010000⟩] ∧
    fourPagesRun.Contract := by
  have hboot : boot fourPages zeroMemory = fourPagesBoot := rfl
  have hsteps : (runSteps exec fourPagesBoot fourPagesCalls).isSome = true := by decide +kernel
  have hrun : Reaches Step (boot fourPages zeroMemory) fourPagesRun := by
    rw [hboot]
    exact (trace_runLast hsteps).reaches .start
  have hlive : fourPagesRun.live =
      [⟨0xFFFF800000010078, 8, 0xFFFF800000010000⟩, ⟨0xFFFF800000010060, 7, 0xFFFF800000010000⟩] := by decide +kernel
  exact ⟨hrun, hlive, contract_of_run fourPages zeroMemory hrun⟩

end HeapRun

end LizardOs.Mm
