import LizardOs.Mm.BuddySafety
import LizardOs.Mm.Slab

/-!
# What the slabs own

The blocks the page allocator has handed out are ranges of addresses that are apart.  Each slab owns one of them.
Its objects lie behind its header at equal distances; the free ones are on its free list, and the others are held
by somebody, once each.  Every call of `slab.c` keeps this.
-/

namespace LizardOs.Mm

open LizardOs.Lib

/-! ### Outstanding blocks as ranges of addresses -/

/-- The blocks of `out` are outstanding, and each address is the first one of its block. -/
structure Pages (bi : Boot) (b : Buddy) (out : List (ℕ × ℕ)) : Prop where
  run : BuddyRun.Inv bi ⟨b, out⟩
  addr : ∀ a ∈ out, a.1 = b.pfnOf a.1 * PAGE_SIZE + b.hhdmOffset

/-- The size of a block in bytes. -/
def blockSize (order : ℕ) : ℕ := PAGE_SIZE * 2 ^ order

namespace Pages

variable {bi : Boot} {b : Buddy} {out out' : List (ℕ × ℕ)} {a c : ℕ × ℕ}

theorem perm (h : Pages bi b out) (hp : out.Perm out') : Pages bi b out' where
  run := ⟨h.run.blocks.perm (hp.map _), h.run.mapped, fun a ha => h.run.nonzero a (hp.mem_iff.mpr ha)⟩
  addr := fun a ha => h.addr a (hp.mem_iff.mpr ha)

theorem ne_zero (h : Pages bi b out) (ha : a ∈ out) : a.1 ≠ 0 := h.run.nonzero a ha

/-- An outstanding block lies inside the direct map. -/
theorem inside (h : Pages bi b out) (ha : a ∈ out) : a.1 + blockSize a.2 ≤ 2 ^ 64 := by
  have hin := h.run.blocks.tiles.inside (b.blockOf a) (List.mem_append_right _ (List.mem_map_of_mem ha))
  have hfits := h.run.mapped.fits
  have hmul : (b.pfnOf a.1 + 2 ^ a.2) * PAGE_SIZE ≤ b.pageCount * PAGE_SIZE := Nat.mul_le_mul_right _ hin
  have haddr := h.addr a ha
  rw [Nat.add_mul] at hmul
  rw [blockSize, Nat.mul_comm PAGE_SIZE]
  simp only at hfits
  omega

/-- Outstanding blocks are apart. -/
theorem pairwise (h : Pages bi b out) :
    out.Pairwise fun a c => RangesApart a.1 (blockSize a.2) c.1 (blockSize c.2) := by
  have hblocks : (out.map b.blockOf).Pairwise Block.Apart :=
    (List.pairwise_append.mp h.run.blocks.tiles.apart).2.1
  refine (List.pairwise_map.mp hblocks).imp_of_mem fun {a c} ha hc hapart => ?_
  have haddr := h.addr a ha
  have hcaddr := h.addr c hc
  rw [RangesApart, blockSize, blockSize, Nat.mul_comm PAGE_SIZE, Nat.mul_comm PAGE_SIZE]
  rcases hapart with hle | hle
  · left
    have hmul : (b.pfnOf a.1 + 2 ^ a.2) * PAGE_SIZE ≤ b.pfnOf c.1 * PAGE_SIZE := Nat.mul_le_mul_right _ hle
    rw [Nat.add_mul] at hmul
    omega
  · right
    have hmul : (b.pfnOf c.1 + 2 ^ c.2) * PAGE_SIZE ≤ b.pfnOf a.1 * PAGE_SIZE := Nat.mul_le_mul_right _ hle
    rw [Nat.add_mul] at hmul
    omega

theorem blockSize_pos (order : ℕ) : 0 < blockSize order :=
  Nat.mul_pos (by decide) (Nat.two_pow_pos order)

/-- No address is handed out twice. -/
theorem nodup (h : Pages bi b out) : (out.map Prod.fst).Nodup := by
  rw [List.Nodup, List.pairwise_map]
  refine h.pairwise.imp fun {a c} hapart heq => ?_
  have hpa := blockSize_pos a.2
  have hpc := blockSize_pos c.2
  rcases hapart with hle | hle
  · omega
  · omega

/-- **`buddy_alloc`** fails and changes nothing, or hands out one more block. -/
theorem alloc (h : Pages bi b out) (order : ℕ) :
    ((b.alloc order).1 = 0 ∧ (b.alloc order).2 = b) ∨
    ((b.alloc order).1 ≠ 0 ∧ Pages bi (b.alloc order).2 (((b.alloc order).1, order) :: out)) := by
  rcases Buddy.alloc_spec h.run.blocks order with ⟨heq, -⟩ | ⟨pfn, b', heq, hinv, hcount, hoff, -, -⟩
  · left
    have heq' : b.alloc order = (0, b) := heq
    rw [heq']
    exact ⟨rfl, rfl⟩
  · right
    have hpfn : pfn < b.pageCount := by
      have hlt := (⟨pfn, order⟩ : Block).start_lt_stop
      have hin := hinv.tiles.inside ⟨pfn, order⟩ (by simp)
      rw [hcount] at hin
      exact Nat.lt_of_lt_of_le hlt hin
    have hmapped : b.Mapped := h.run.mapped
    have hpfnOf : b.pfnOf (b.vaddr pfn) = pfn := hmapped.pfnOf_vaddr hpfn
    have hne : b.vaddr pfn ≠ 0 := hmapped.vaddr_ne_zero hpfn
    have hsame : b'.pfnOf = b.pfnOf := by
      funext v
      rw [Buddy.pfnOf, Buddy.pfnOf, hoff]
    have hblock : b'.blockOf = b.blockOf := Buddy.blockOf_congr hoff
    have heq' : b.alloc order = (b.vaddr pfn, b') := heq
    rw [heq']
    refine ⟨hne, ⟨?_, ⟨?_, ?_⟩, ?_⟩, ?_⟩
    · show b'.Inv ((b'.blockOf (b.vaddr pfn, order)) :: out.map b'.blockOf) bi.FreeAtBoot
      rw [hblock, Buddy.blockOf, hpfnOf]
      exact hinv
    · show 0 < b'.hhdmOffset
      rw [hoff]
      exact hmapped.pos
    · show b'.hhdmOffset + b'.pageCount * PAGE_SIZE ≤ 2 ^ 64
      rw [hoff, hcount]
      exact hmapped.fits
    · intro a ha
      rcases List.mem_cons.mp ha with rfl | ha
      · exact hne
      · exact h.run.nonzero a ha
    · intro a ha
      rw [hsame, hoff]
      rcases List.mem_cons.mp ha with rfl | ha
      · show b.vaddr pfn = b.pfnOf (b.vaddr pfn) * PAGE_SIZE + b.hhdmOffset
        rw [hpfnOf]
        exact hmapped.vaddr_eq hpfn
      · exact h.addr a ha

/-- **`buddy_free`** of an outstanding block takes it back. -/
theorem free (h : Pages bi b (a :: out)) : Pages bi (b.free a.1 a.2) out := by
  have hrun := h.run.free (a := a) List.mem_cons_self
  rw [List.erase_cons_head] at hrun
  have hoff := b.free_hhdmOffset a.1 a.2
  refine ⟨hrun, fun c hc => ?_⟩
  have haddr := h.addr c (List.mem_cons_of_mem _ hc)
  rw [Buddy.pfnOf, hoff]
  exact haddr

end Pages

/-! ### Objects inside a slab -/

theorem alignUpTo_ptr (x : ℕ) : alignUpTo x SIZEOF_PTR = (x + 7) % 2 ^ 64 / 8 * 8 :=
  alignUpTo_two_pow (k := 3) (by decide) x

theorem le_alignUpTo_ptr {x : ℕ} (h : x + SIZEOF_PTR ≤ 2 ^ 64) : x ≤ alignUpTo x SIZEOF_PTR := by
  rw [SIZEOF_PTR] at h
  rw [alignUpTo_ptr, Nat.mod_eq_of_lt (by omega)]
  omega

/-- An object fits behind its header, and objects are aligned like pointers. -/
structure CacheShape.Ok (c : CacheShape) : Prop where
  align : c.align = SIZEOF_PTR
  room : SIZEOF_SLAB_OBJ + c.objectSize ≤ c.realObjectSize

theorem shapeFor_ok {size : ℕ} (h : SIZEOF_SLAB_OBJ + size + SIZEOF_PTR ≤ 2 ^ 64) : (Heap.shapeFor size).Ok :=
  ⟨rfl, le_alignUpTo_ptr h⟩

variable {c : CacheShape} {slab o o' : ℕ}

/-- The objects of a slab lie behind its header and inside its block. -/
theorem CacheShape.Ok.inside (hc : c.Ok) (hslab : slab + c.slabSize ≤ 2 ^ 64) (ho : o ∈ c.slots slab) :
    slab + SIZEOF_SLAB ≤ o ∧ o + c.realObjectSize ≤ slab + c.slabSize := by
  have hsize : PAGE_SIZE ≤ c.slabSize := Nat.le_mul_of_pos_right _ (Nat.two_pow_pos _)
  have hstart : slab + SIZEOF_SLAB ≤ c.objStart slab := by
    rw [CacheShape.objStart, hc.align]
    apply le_alignUpTo_ptr
    rw [PAGE_SIZE] at hsize
    rw [SIZEOF_SLAB, SIZEOF_PTR]
    omega
  have hend : c.slabEnd slab ≤ slab + c.slabSize := Nat.mod_le _ _
  obtain ⟨h1, h2⟩ := strides_inside ho
  exact ⟨hstart.trans h1, h2.trans hend⟩

theorem CacheShape.Ok.slots_nodup (hc : c.Ok) (slab : ℕ) : (c.slots slab).Nodup := by
  apply strides_nodup
  have hroom := hc.room
  rw [SIZEOF_SLAB_OBJ] at hroom
  omega

/-! ### The invariant -/

/-- An object somebody holds: its address, the size asked for, and the slab it came from. -/
structure Obj where
  ptr : ℕ
  size : ℕ
  slab : ℕ
deriving DecidableEq

/-- The address of the object's header. -/
def Obj.head (x : Obj) : ℕ := x.ptr - SIZEOF_SLAB_OBJ

/-- The slabs of a cache. -/
def KmemCache.slabs (c : KmemCache) : List ℕ := c.slabsFull ++ c.slabsPartial ++ c.slabsFree

theorem KmemCache.mem_slabs {c : KmemCache} {s : ℕ} :
    s ∈ c.slabs ↔ s ∈ c.slabsFull ∨ s ∈ c.slabsPartial ∨ s ∈ c.slabsFree := by
  rw [KmemCache.slabs, List.mem_append, List.mem_append, or_assoc]

theorem KmemCache.mem_unlink {c : KmemCache} {s t : ℕ} : t ∈ (c.unlink s).slabs ↔ t ∈ c.slabs ∧ t ≠ s := by
  simp only [KmemCache.mem_slabs, KmemCache.unlink, List.mem_filter, decide_eq_true_eq]
  tauto

theorem KmemCache.mem_moveToFull {c : KmemCache} {s t : ℕ} (hs : s ∈ c.slabs) :
    t ∈ (c.moveToFull s).slabs ↔ t ∈ c.slabs := by
  have hun := KmemCache.mem_unlink (c := c) (s := s) (t := t)
  rw [KmemCache.mem_slabs] at hun ⊢
  simp only [KmemCache.moveToFull, List.mem_cons]
  by_cases hts : t = s
  · rw [hts]
    exact ⟨fun _ => hs, fun _ => .inl (.inl rfl)⟩
  · tauto

theorem KmemCache.mem_moveToPartial {c : KmemCache} {s t : ℕ} (hs : s ∈ c.slabs) :
    t ∈ (c.moveToPartial s).slabs ↔ t ∈ c.slabs := by
  have hun := KmemCache.mem_unlink (c := c) (s := s) (t := t)
  rw [KmemCache.mem_slabs] at hun ⊢
  simp only [KmemCache.moveToPartial, List.mem_cons]
  by_cases hts : t = s
  · rw [hts]
    exact ⟨fun _ => hs, fun _ => .inr (.inl (.inl rfl))⟩
  · tauto

theorem KmemCache.mem_moveToFree {c : KmemCache} {s t : ℕ} (hs : s ∈ c.slabs) :
    t ∈ (c.moveToFree s).slabs ↔ t ∈ c.slabs := by
  have hun := KmemCache.mem_unlink (c := c) (s := s) (t := t)
  rw [KmemCache.mem_slabs] at hun ⊢
  simp only [KmemCache.moveToFree, List.mem_cons]
  by_cases hts : t = s
  · rw [hts]
    exact ⟨fun _ => hs, fun _ => .inr (.inr (.inl rfl))⟩
  · tauto

/-- What is left of the lists with free objects after a slab was unlinked. -/
theorem KmemCache.mem_unlink_ready {c : KmemCache} {s t : ℕ} :
    t ∈ (c.unlink s).slabsPartial ∨ t ∈ (c.unlink s).slabsFree ↔
      t ≠ s ∧ (t ∈ c.slabsPartial ∨ t ∈ c.slabsFree) := by
  simp only [KmemCache.unlink, List.mem_filter, decide_eq_true_eq]
  tauto

namespace Heap

/-- The sizes of the cache a slab belongs to. -/
def shapeOf (h : Heap) (s : ℕ) : CacheShape := (h.caches (h.slabs s).cache).toCacheShape

/-- The block of a slab. -/
def slabBlock (h : Heap) (s : ℕ) : ℕ × ℕ := (s, (h.shapeOf s).order)

/-- How many of the objects somebody holds are in the slab. -/
def heldIn (held : List Obj) (s : ℕ) : ℕ := (held.filter fun x => decide (x.slab = s)).length

/-- A slab whose objects are free or held. -/
structure Carved (h : Heap) (held : List Obj) (s : ℕ) : Prop where
  magic : (h.slabs s).magic = SLAB_MAGIC
  nodup : (h.slabs s).freelist.Nodup
  slots : ∀ o ∈ (h.slabs s).freelist, o ∈ (h.shapeOf s).slots s
  free : (h.slabs s).free = (h.slabs s).freelist.length
  inUse : (h.slabs s).inUse = heldIn held s
  owner : ∀ o ∈ (h.shapeOf s).slots s, h.objSlab o = s

/-- A held object is one of its slab and not on the free list. -/
structure Placed (h : Heap) (x : Obj) : Prop where
  past : SIZEOF_SLAB_OBJ ≤ x.ptr
  slot : x.head ∈ (h.shapeOf x.slab).slots x.slab
  taken : x.head ∉ (h.slabs x.slab).freelist
  size : x.size ≤ (h.shapeOf x.slab).objectSize

/-- The caches `cs` with the slabs `owned` and the objects `held`, beside the blocks of others. -/
structure Inv (bi : Boot) (h : Heap) (cs owned : List ℕ) (held : List Obj) (others : List (ℕ × ℕ)) : Prop where
  pages : Pages bi h.buddy (cs.map (fun ca => (ca, 0)) ++ owned.map h.slabBlock ++ others)
  shapes : ∀ ca ∈ cs, (h.caches ca).Ok
  listed : ∀ s, s ∈ owned ↔ ∃ ca ∈ cs, s ∈ (h.caches ca).slabs
  home : ∀ ca ∈ cs, ∀ s ∈ (h.caches ca).slabs, (h.slabs s).cache = ca
  ready : ∀ ca ∈ cs, ∀ s, s ∈ (h.caches ca).slabsPartial ∨ s ∈ (h.caches ca).slabsFree → 0 < (h.slabs s).free
  carved : ∀ s ∈ owned, Carved h held s
  slabOf : ∀ x ∈ held, x.slab ∈ owned
  placed : ∀ x ∈ held, Placed h x
  distinct : (held.map Obj.ptr).Nodup

section

variable {bi : Boot} {h h' : Heap} {cs owned : List ℕ} {held held' : List Obj} {others : List (ℕ × ℕ)}
  {ca s t o : ℕ} {x : Obj} {f : KmemCache → KmemCache} {g : Slab → Slab}

@[simp] theorem setCache_self (h : Heap) (ca : ℕ) (f : KmemCache → KmemCache) :
    (h.setCache ca f).caches ca = f (h.caches ca) := Function.update_self ..

theorem setCache_of_ne (f : KmemCache → KmemCache) (ht : t ≠ ca) : (h.setCache ca f).caches t = h.caches t :=
  Function.update_of_ne ht ..

@[simp] theorem setSlab_self (h : Heap) (s : ℕ) (g : Slab → Slab) :
    (h.setSlab s g).slabs s = g (h.slabs s) := Function.update_self ..

theorem setSlab_of_ne (g : Slab → Slab) (ht : t ≠ s) : (h.setSlab s g).slabs t = h.slabs t :=
  Function.update_of_ne ht ..

theorem setCache_setCache (h : Heap) (ca : ℕ) (f f' : KmemCache → KmemCache) :
    (h.setCache ca f).setCache ca f' = h.setCache ca fun c => f' (f c) := by
  simp only [setCache, Function.update_self, Function.update_idem]

theorem Inv.cache_mem (hi : Inv bi h cs owned held others) (hs : s ∈ owned) :
    (h.slabs s).cache ∈ cs ∧ s ∈ (h.caches (h.slabs s).cache).slabs := by
  obtain ⟨ca, hca, hsl⟩ := (hi.listed s).mp hs
  rw [hi.home ca hca s hsl]
  exact ⟨hca, hsl⟩

theorem Inv.shape_ok (hi : Inv bi h cs owned held others) (hs : s ∈ owned) : (h.shapeOf s).Ok :=
  hi.shapes _ (hi.cache_mem hs).1

theorem slabBlock_mem (cs : List ℕ) (others : List (ℕ × ℕ)) (hs : s ∈ owned) :
    h.slabBlock s ∈ cs.map (fun ca => (ca, 0)) ++ owned.map h.slabBlock ++ others :=
  List.mem_append_left _ (List.mem_append_right _ (List.mem_map_of_mem hs))

/-- The block of a slab is inside the address space. -/
theorem Inv.slab_inside (hi : Inv bi h cs owned held others) (hs : s ∈ owned) :
    s + (h.shapeOf s).slabSize ≤ 2 ^ 64 := hi.pages.inside (slabBlock_mem cs others hs)

/-- A slot of a slab, with its header, is behind the header of the slab and inside its block. -/
theorem Inv.slot_inside (hi : Inv bi h cs owned held others) (hs : s ∈ owned) (ho : o ∈ (h.shapeOf s).slots s) :
    s + SIZEOF_SLAB ≤ o ∧ o + (h.shapeOf s).realObjectSize ≤ s + (h.shapeOf s).slabSize :=
  (hi.shape_ok hs).inside (hi.slab_inside hs) ho

theorem Inv.owned_nodup (hi : Inv bi h cs owned held others) : owned.Nodup := by
  have hnodup := hi.pages.nodup
  rw [List.map_append, List.map_append, List.map_map, List.map_map] at hnodup
  have hmid := (List.nodup_append.mp (List.nodup_append.mp hnodup).1).2.1
  have hid : owned.map (Prod.fst ∘ h.slabBlock) = owned := List.map_id owned
  rw [hid] at hmid
  exact hmid

/-- The blocks of two slabs are apart. -/
theorem Inv.slabs_apart (hi : Inv bi h cs owned held others) (hs : s ∈ owned) (ht : t ∈ owned) (hne : s ≠ t) :
    RangesApart s (h.shapeOf s).slabSize t (h.shapeOf t).slabSize := by
  have hmid := (List.pairwise_append.mp (List.pairwise_append.mp hi.pages.pairwise).1).2.1
  have hpair := List.pairwise_map.mp hmid
  have : Std.Symm fun a b => RangesApart (h.slabBlock a).1 (blockSize (h.slabBlock a).2) (h.slabBlock b).1
      (blockSize (h.slabBlock b).2) := ⟨fun _ _ hapart => hapart.symm⟩
  exact hpair.forall hs ht hne

/-- One cache keeps its sizes, one slab its cache: no slab changes its shape. -/
theorem shapeOf_update (hshape : (f (h.caches ca)).toCacheShape = (h.caches ca).toCacheShape)
    (hcache : (g (h.slabs s)).cache = (h.slabs s).cache) (t : ℕ) :
    ((h.setSlab s g).setCache ca f).shapeOf t = h.shapeOf t := by
  have hslab : ((h.setSlab s g).slabs t).cache = (h.slabs t).cache := by
    by_cases hts : t = s
    · rw [hts, setSlab_self, hcache]
    · rw [setSlab_of_ne g hts]
  show (((h.setSlab s g).setCache ca f).caches ((h.setSlab s g).slabs t).cache).toCacheShape = _
  rw [hslab, shapeOf]
  by_cases htc : (h.slabs t).cache = ca
  · rw [htc, setCache_self]
    exact hshape
  · rw [setCache_of_ne f htc]
    rfl

/-- **A change of one slab and of the lists of its cache.**  The lists hold the same slabs as before; what has to be
shown is about this slab and the objects in it only. -/
theorem Inv.update (hi : Inv bi h cs owned held others) (hs : s ∈ owned) (hca : (h.slabs s).cache = ca)
    (hshape : (f (h.caches ca)).toCacheShape = (h.caches ca).toCacheShape)
    (hslabs : ∀ t, t ∈ (f (h.caches ca)).slabs ↔ t ∈ (h.caches ca).slabs)
    (hready : ∀ t, t ∈ (f (h.caches ca)).slabsPartial ∨ t ∈ (f (h.caches ca)).slabsFree →
      (t = s ∧ 0 < (g (h.slabs s)).free) ∨
        (t ≠ s ∧ (t ∈ (h.caches ca).slabsPartial ∨ t ∈ (h.caches ca).slabsFree)))
    (hcache : (g (h.slabs s)).cache = (h.slabs s).cache)
    (hcarved : Carved ((h.setSlab s g).setCache ca f) held' s)
    (hcount : ∀ t, t ≠ s → heldIn held' t = heldIn held t)
    (hheld : ∀ x ∈ held', (x.slab = s ∧ Placed ((h.setSlab s g).setCache ca f) x) ∨ (x.slab ≠ s ∧ x ∈ held))
    (hdistinct : (held'.map Obj.ptr).Nodup) :
    Inv bi ((h.setSlab s g).setCache ca f) cs owned held' others := by
  set h' := (h.setSlab s g).setCache ca f with hh'
  have hshapeOf : ∀ t, h'.shapeOf t = h.shapeOf t := shapeOf_update hshape hcache
  have hslabOf : ∀ t, t ≠ s → h'.slabs t = h.slabs t := fun t ht => setSlab_of_ne g ht
  have hself : h'.slabs s = g (h.slabs s) := setSlab_self h s g
  have hcaSelf : h'.caches ca = f (h.caches ca) := setCache_self ..
  have hcaOther : ∀ ca', ca' ≠ ca → h'.caches ca' = h.caches ca' := fun ca' hne => setCache_of_ne f hne
  have hmem : ∀ ca' t, t ∈ (h'.caches ca').slabs ↔ t ∈ (h.caches ca').slabs := by
    intro ca' t
    by_cases hne : ca' = ca
    · rw [hne, hcaSelf]
      exact hslabs t
    · rw [hcaOther ca' hne]
  obtain ⟨hcaMem, -⟩ := hi.cache_mem hs
  rw [hca] at hcaMem
  refine ⟨?_, fun ca' hca' => ?_, fun t => ?_, fun ca' hca' t ht => ?_, fun ca' hca' t ht => ?_, fun t ht => ?_,
    fun x hx => ?_, fun x hx => ?_, hdistinct⟩
  · have hblocks : owned.map h'.slabBlock = owned.map h.slabBlock := by
      apply List.map_congr_left
      intro t _
      rw [slabBlock, slabBlock, hshapeOf]
    rw [hblocks]
    exact hi.pages
  · by_cases hne : ca' = ca
    · rw [hne, hcaSelf, hshape]
      exact hi.shapes ca hcaMem
    · rw [hcaOther ca' hne]
      exact hi.shapes ca' hca'
  · rw [hi.listed t]
    constructor
    · intro ⟨ca', hca', ht⟩
      exact ⟨ca', hca', (hmem ca' t).mpr ht⟩
    · intro ⟨ca', hca', ht⟩
      exact ⟨ca', hca', (hmem ca' t).mp ht⟩
  · have hold := hi.home ca' hca' t ((hmem ca' t).mp ht)
    by_cases hts : t = s
    · rw [hts, hself, hcache, ← hts]
      exact hold
    · rw [hslabOf t hts]
      exact hold
  · by_cases hne : ca' = ca
    · rw [hne, hcaSelf] at ht
      rcases hready t ht with ⟨hts, hpos⟩ | ⟨hts, hold⟩
      · rw [hts, hself]
        exact hpos
      · rw [hslabOf t hts]
        exact hi.ready ca hcaMem t hold
    · rw [hcaOther ca' hne] at ht
      have hts : t ≠ s := by
        intro hts
        have hsl : s ∈ (h.caches ca').slabs := by
          rw [hts] at ht
          exact KmemCache.mem_slabs.mpr (.inr ht)
        exact hne ((hi.home ca' hca' s hsl).symm.trans hca)
      rw [hslabOf t hts]
      exact hi.ready ca' hca' t ht
  · by_cases hts : t = s
    · rw [hts]
      exact hcarved
    · have hold := hi.carved t ht
      refine ⟨?_, ?_, ?_, ?_, ?_, ?_⟩
      · rw [hslabOf t hts]
        exact hold.magic
      · rw [hslabOf t hts]
        exact hold.nodup
      · rw [hslabOf t hts, hshapeOf]
        exact hold.slots
      · rw [hslabOf t hts]
        exact hold.free
      · rw [hslabOf t hts, hcount t hts]
        exact hold.inUse
      · rw [hshapeOf]
        exact hold.owner
  · rcases hheld x hx with ⟨hxs, -⟩ | ⟨-, hold⟩
    · rw [hxs]
      exact hs
    · exact hi.slabOf x hold
  · rcases hheld x hx with ⟨-, hp⟩ | ⟨hxs, hold⟩
    · exact hp
    · have hp := hi.placed x hold
      refine ⟨hp.past, ?_, ?_, ?_⟩
      · rw [hshapeOf]
        exact hp.slot
      · rw [hslabOf x.slab hxs]
        exact hp.taken
      · rw [hshapeOf]
        exact hp.size

/-! ### Taking an object -/

/-- What the calls of `slab.c` leave alone: the bookkeeping of `kmalloc.c` and the sizes of the caches. -/
structure SameKmalloc (h h' : Heap) : Prop where
  initialized : h'.kmallocInitialized = h.kmallocInitialized
  nodeCache : h'.kmallocNodeCache = h.kmallocNodeCache
  cacheList : h'.kmallocCacheList = h.kmallocCacheList
  shape : ∀ ca, (h'.caches ca).toCacheShape = (h.caches ca).toCacheShape

theorem SameKmalloc.trans {h'' : Heap} (h1 : SameKmalloc h h') (h2 : SameKmalloc h' h'') : SameKmalloc h h'' :=
  ⟨h2.initialized.trans h1.initialized, h2.nodeCache.trans h1.nodeCache, h2.cacheList.trans h1.cacheList,
    fun ca => (h2.shape ca).trans (h1.shape ca)⟩

theorem sameKmalloc_update (hshape : (f (h.caches ca)).toCacheShape = (h.caches ca).toCacheShape) :
    SameKmalloc h ((h.setSlab s g).setCache ca f) := by
  refine ⟨rfl, rfl, rfl, fun ca' => ?_⟩
  by_cases hne : ca' = ca
  · rw [hne, setCache_self]
    exact hshape
  · rw [setCache_of_ne f hne]
    rfl

theorem heldIn_cons_self (held : List Obj) (x : Obj) : heldIn (x :: held) x.slab = heldIn held x.slab + 1 := by
  rw [heldIn, heldIn, List.filter_cons_of_pos (by simp), List.length_cons]

theorem heldIn_cons_of_ne (held : List Obj) (ht : t ≠ x.slab) : heldIn (x :: held) t = heldIn held t := by
  rw [heldIn, heldIn, List.filter_cons_of_neg]
  rw [decide_eq_true_eq]
  exact Ne.symm ht

/-- A held object and a free one are not the same. -/
theorem Inv.ptr_ne (hi : Inv bi h cs owned held others) (hx : x ∈ held) (hs : s ∈ owned)
    (ho : o ∈ (h.slabs s).freelist) : x.ptr ≠ o + SIZEOF_SLAB_OBJ := by
  intro hptr
  have hp := hi.placed x hx
  have hhead : x.head = o := by
    rw [Obj.head, hptr, Nat.add_sub_cancel]
  have hown := (hi.carved x.slab (hi.slabOf x hx)).owner x.head hp.slot
  rw [hhead, (hi.carved s hs).owner o ((hi.carved s hs).slots o ho)] at hown
  apply hp.taken
  rw [hhead, ← hown]
  exact ho

/-- The slab after its first free object was taken. -/
def taken (s : Slab) : Slab := { s with inUse := s.inUse + 1, free := s.free - 1, freelist := s.freelist.tail }

theorem takeObject_eq {rest : List ℕ} (hfl : (h.slabs s).freelist = o :: rest) :
    h.takeObject ca s = some (o + SIZEOF_SLAB_OBJ, (h.setSlab s taken).setCache ca fun c =>
      if (h.slabs s).free - 1 = 0 then c.countUp.moveToFull s
      else c.countUp) := by
  have hslab : (h.setSlab s fun s => { s with inUse := s.inUse + 1, free := s.free - 1, freelist := rest }) =
      h.setSlab s taken := by
    simp only [setSlab, taken, hfl, List.tail_cons]
  rw [takeObject, hfl]
  simp only []
  rw [hslab]
  have hfree : (((h.setSlab s taken).setCache ca fun c => c.countUp).slabs s).free =
      (h.slabs s).free - 1 := by
    show ((h.setSlab s taken).slabs s).free = _
    rw [setSlab_self]
    rfl
  rw [hfree]
  by_cases hzero : (h.slabs s).free - 1 = 0
  · simp only [if_pos hzero, setCache_setCache]
  · simp only [if_neg hzero]

/-- **Taking an object** from a slab that has a free one. -/
theorem Inv.takeObject (hi : Inv bi h cs owned held others) (hs : s ∈ owned) (hca : (h.slabs s).cache = ca)
    (hfree : 0 < (h.slabs s).free) {size : ℕ} (hsize : size ≤ (h.caches ca).objectSize) :
    ∃ p h', h.takeObject ca s = some (p, h') ∧ p ≠ 0 ∧ h'.objSlab (p - SIZEOF_SLAB_OBJ) = s ∧ SameKmalloc h h' ∧
      Inv bi h' cs owned (⟨p, size, s⟩ :: held) others := by
  have hcarved := hi.carved s hs
  obtain ⟨-, hsl⟩ := hi.cache_mem hs
  rw [hca] at hsl
  cases hfl : (h.slabs s).freelist with
  | nil =>
    rw [hcarved.free, hfl] at hfree
    exact absurd hfree (Nat.lt_irrefl 0)
  | cons o rest =>
    have hnodup : o ∉ rest ∧ rest.Nodup := List.nodup_cons.mp (hfl ▸ hcarved.nodup)
    have hmem : ∀ y ∈ o :: rest, y ∈ (h.slabs s).freelist := by
      rw [hfl]
      exact fun y hy => hy
    have hslot := hcarved.slots o (hmem o List.mem_cons_self)
    set f : KmemCache → KmemCache := fun c =>
      if (h.slabs s).free - 1 = 0 then c.countUp.moveToFull s
      else c.countUp with hf
    have hshape : (f (h.caches ca)).toCacheShape = (h.caches ca).toCacheShape := by
      rw [hf]
      simp only []
      split <;> rfl
    have hself : ((h.setSlab s taken).setCache ca f).slabs s = taken (h.slabs s) := setSlab_self ..
    have hshapeOf : ((h.setSlab s taken).setCache ca f).shapeOf s = h.shapeOf s := shapeOf_update hshape rfl s
    have hrest : (taken (h.slabs s)).freelist = rest := by
      rw [taken, hfl]
      rfl
    refine ⟨o + SIZEOF_SLAB_OBJ, _, takeObject_eq hfl, ?_, ?_, sameKmalloc_update hshape, ?_⟩
    · rw [SIZEOF_SLAB_OBJ]
      omega
    · rw [Nat.add_sub_cancel]
      exact hcarved.owner o hslot
    refine hi.update hs hca hshape (fun t => ?_) (fun t ht => ?_) rfl ?_ (fun t ht => heldIn_cons_of_ne held ht)
      (fun x hx => ?_) ?_
    · split
      · exact KmemCache.mem_moveToFull hsl
      · exact Iff.rfl
    · split at ht
      · exact .inr (KmemCache.mem_unlink_ready.mp ht)
      · rename_i hpos
        by_cases hts : t = s
        · exact .inl ⟨hts, Nat.pos_of_ne_zero hpos⟩
        · exact .inr ⟨hts, ht⟩
    · refine ⟨?_, ?_, ?_, ?_, ?_, ?_⟩
      · rw [hself]
        exact hcarved.magic
      · rw [hself, hrest]
        exact hnodup.2
      · rw [hself, hrest, hshapeOf]
        exact fun y hy => hcarved.slots y (hmem y (List.mem_cons_of_mem _ hy))
      · rw [hself, hrest]
        show (h.slabs s).free - 1 = rest.length
        rw [hcarved.free, hfl, List.length_cons, Nat.add_sub_cancel]
      · rw [hself]
        show (h.slabs s).inUse + 1 = _
        rw [hcarved.inUse]
        exact (heldIn_cons_self held ⟨o + SIZEOF_SLAB_OBJ, size, s⟩).symm
      · rw [hshapeOf]
        exact hcarved.owner
    · rcases List.mem_cons.mp hx with rfl | hx
      · refine .inl ⟨rfl, ?_, ?_, ?_, ?_⟩
        · exact Nat.le_add_left _ _
        · rw [hshapeOf]
          show o + SIZEOF_SLAB_OBJ - SIZEOF_SLAB_OBJ ∈ _
          rw [Nat.add_sub_cancel]
          exact hslot
        · rw [hself, hrest]
          show o + SIZEOF_SLAB_OBJ - SIZEOF_SLAB_OBJ ∉ rest
          rw [Nat.add_sub_cancel]
          exact hnodup.1
        · rw [hshapeOf, shapeOf, hca]
          exact hsize
      · by_cases hxs : x.slab = s
        · have hp := hi.placed x hx
          refine .inl ⟨hxs, hp.past, ?_, ?_, ?_⟩
          · rw [hxs, hshapeOf, ← hxs]
            exact hp.slot
          · rw [hxs, hself, hrest]
            have htaken := hp.taken
            rw [hxs] at htaken
            exact fun hy => htaken (hmem _ (List.mem_cons_of_mem _ hy))
          · rw [hxs, hshapeOf, ← hxs]
            exact hp.size
        · exact .inr ⟨hxs, hx⟩
    · refine List.nodup_cons.mpr ⟨fun hptr => ?_, hi.distinct⟩
      obtain ⟨y, hy, hyp⟩ := List.mem_map.mp hptr
      exact hi.ptr_ne hy hs (hmem o List.mem_cons_self) hyp

/-- **Relinking** a slab on the lists of its cache. -/
theorem Inv.relink (hi : Inv bi h cs owned held others) (hs : s ∈ owned) (hca : (h.slabs s).cache = ca)
    (hshape : (f (h.caches ca)).toCacheShape = (h.caches ca).toCacheShape)
    (hslabs : ∀ t, t ∈ (f (h.caches ca)).slabs ↔ t ∈ (h.caches ca).slabs)
    (hready : ∀ t, t ∈ (f (h.caches ca)).slabsPartial ∨ t ∈ (f (h.caches ca)).slabsFree →
      (t = s ∧ 0 < (h.slabs s).free) ∨
        (t ≠ s ∧ (t ∈ (h.caches ca).slabsPartial ∨ t ∈ (h.caches ca).slabsFree))) :
    Inv bi (h.setCache ca f) cs owned held others := by
  have hid : h.setSlab s id = h := by
    simp only [setSlab, id, Function.update_eq_self]
  have hkept : ∀ t, ((h.setSlab s id).setCache ca f).shapeOf t = h.shapeOf t := shapeOf_update hshape rfl
  have hslab : ∀ t, ((h.setSlab s id).setCache ca f).slabs t = h.slabs t := by
    intro t
    rw [hid]
    rfl
  have hobj : ((h.setSlab s id).setCache ca f).objSlab = h.objSlab := rfl
  have hplaced : ∀ x ∈ held, Placed ((h.setSlab s id).setCache ca f) x := by
    intro x hx
    have hp := hi.placed x hx
    refine ⟨hp.past, ?_, ?_, ?_⟩
    · rw [hkept]
      exact hp.slot
    · rw [hslab]
      exact hp.taken
    · rw [hkept]
      exact hp.size
  have hcarved : Carved ((h.setSlab s id).setCache ca f) held s := by
    have hc := hi.carved s hs
    refine ⟨?_, ?_, ?_, ?_, ?_, ?_⟩
    · rw [hslab]
      exact hc.magic
    · rw [hslab]
      exact hc.nodup
    · rw [hslab, hkept]
      exact hc.slots
    · rw [hslab]
      exact hc.free
    · rw [hslab]
      exact hc.inUse
    · rw [hkept, hobj]
      exact hc.owner
  have hfinal := hi.update hs hca hshape hslabs hready rfl hcarved (fun _ _ => rfl) (fun x hx => ?_) hi.distinct
  · rw [hid] at hfinal
    exact hfinal
  · by_cases hxs : x.slab = s
    · exact .inl ⟨hxs, hplaced x hx⟩
    · exact .inr ⟨hxs, hx⟩

theorem heldIn_eq_zero : heldIn held s = 0 ↔ ∀ x ∈ held, x.slab ≠ s := by
  rw [heldIn, List.length_eq_zero_iff, List.filter_eq_nil_iff]
  constructor
  · intro hnone x hx hxs
    exact hnone x hx (decide_eq_true hxs)
  · intro hnone x hx hxs
    exact hnone x hx (of_decide_eq_true hxs)

/-- A slab that `slab_create` has carved, before it is on a list. -/
def withSlab (h : Heap) (ca mem : ℕ) (buddy : Buddy) : Heap :=
  let c := (h.caches ca).toCacheShape
  { h with
    buddy := buddy
    slabs := Function.update h.slabs mem ⟨SLAB_MAGIC, ca, 0, c.objs mem, c.slots mem⟩
    objSlab := fun o => if o ∈ c.slots mem then mem else h.objSlab o }

/-- The page of a block that was just taken holds no slab yet. -/
theorem not_mem_owned_of_pages {mem order : ℕ} {buddy : Buddy}
    (hpages : Pages bi buddy ((mem, order) :: (cs.map (fun ca => (ca, 0)) ++ owned.map h.slabBlock ++ others))) :
    mem ∉ owned := by
  intro hmem
  have hin := List.mem_map_of_mem (f := Prod.fst) (slabBlock_mem (h := h) cs others hmem)
  exact (List.nodup_cons.mp hpages.nodup).1 hin

theorem Inv.withSlab {mem : ℕ} {buddy : Buddy} (hi : Inv bi h cs owned held others) (hca : ca ∈ cs)
    (hpages : Pages bi buddy ((mem, (h.caches ca).order) ::
      (cs.map (fun ca => (ca, 0)) ++ owned.map h.slabBlock ++ others)))
    (hobjs : (h.caches ca).toCacheShape.objs mem ≠ 0) :
    Inv bi ((h.withSlab ca mem buddy).setCache ca fun c => { c with slabsPartial := mem :: c.slabsPartial }) cs
      (mem :: owned) held others := by
  set c := (h.caches ca).toCacheShape with hc
  set h' := (h.withSlab ca mem buddy).setCache ca fun c => { c with slabsPartial := mem :: c.slabsPartial } with hh'
  have hfresh := not_mem_owned_of_pages hpages
  have hself : h'.slabs mem = ⟨SLAB_MAGIC, ca, 0, c.objs mem, c.slots mem⟩ := Function.update_self ..
  have hslab : ∀ t, t ≠ mem → h'.slabs t = h.slabs t := fun t ht => Function.update_of_ne ht ..
  have hcaSelf : h'.caches ca = { h.caches ca with slabsPartial := mem :: (h.caches ca).slabsPartial } :=
    setCache_self ..
  have hcaOther : ∀ ca', ca' ≠ ca → h'.caches ca' = h.caches ca' := fun ca' hne => setCache_of_ne _ hne
  have hcaShape : ∀ ca', (h'.caches ca').toCacheShape = (h.caches ca').toCacheShape := by
    intro ca'
    by_cases hne : ca' = ca
    · rw [hne, hcaSelf]
    · rw [hcaOther ca' hne]
  have hshapeSelf : h'.shapeOf mem = c := by
    rw [shapeOf, hself]
    exact hcaShape ca
  have hshape : ∀ t, t ≠ mem → h'.shapeOf t = h.shapeOf t := by
    intro t ht
    rw [shapeOf, hslab t ht, hcaShape]
    rfl
  have hneOwned : ∀ t ∈ owned, t ≠ mem := fun t ht htm => hfresh (htm ▸ ht)
  have hmemSlabs : ∀ ca' t, t ∈ (h'.caches ca').slabs ↔ (ca' = ca ∧ t = mem) ∨ t ∈ (h.caches ca').slabs := by
    intro ca' t
    by_cases hne : ca' = ca
    · rw [hne, hcaSelf, KmemCache.mem_slabs, KmemCache.mem_slabs]
      simp only [List.mem_cons, true_and]
      tauto
    · rw [hcaOther ca' hne]
      simp only [hne, false_and, false_or]
  have hslots : ∀ t ∈ owned, ∀ o ∈ (h.shapeOf t).slots t, o ∉ c.slots mem := by
    intro t ht o ho hom
    have hapart := (List.pairwise_cons.mp hpages.pairwise).1 (h.slabBlock t) (slabBlock_mem cs others ht)
    have hok : c.Ok := hi.shapes ca hca
    have hbound : mem + c.slabSize ≤ 2 ^ 64 := hpages.inside List.mem_cons_self
    obtain ⟨h1, h2⟩ := hok.inside hbound hom
    obtain ⟨h3, h4⟩ := hi.slot_inside ht ho
    have hroom := hok.room
    have hroom' := (hi.shape_ok ht).room
    rw [SIZEOF_SLAB_OBJ] at hroom hroom'
    rcases hapart with hle | hle
    · have hle' : mem + c.slabSize ≤ t := hle
      omega
    · have hle' : t + (h.shapeOf t).slabSize ≤ mem := hle
      omega
  refine ⟨?_, fun ca' hca' => ?_, fun t => ?_, fun ca' hca' t ht => ?_, fun ca' hca' t ht => ?_, fun t ht => ?_,
    fun x hx => ?_, fun x hx => ?_, hi.distinct⟩
  · have hblocks : (mem :: owned).map h'.slabBlock = (mem, c.order) :: owned.map h.slabBlock := by
      rw [List.map_cons, slabBlock, hshapeSelf]
      congr 1
      apply List.map_congr_left
      intro t ht
      rw [slabBlock, slabBlock, hshape t (hneOwned t ht)]
    rw [hblocks]
    refine hpages.perm ?_
    rw [List.append_assoc, List.append_assoc]
    exact List.perm_middle.symm
  · rw [hcaShape]
    exact hi.shapes ca' hca'
  · rw [List.mem_cons, hi.listed t]
    constructor
    · rintro (rfl | ⟨ca', hca', ht⟩)
      · exact ⟨ca, hca, (hmemSlabs ca _).mpr (.inl ⟨rfl, rfl⟩)⟩
      · exact ⟨ca', hca', (hmemSlabs ca' t).mpr (.inr ht)⟩
    · intro ⟨ca', hca', ht⟩
      rcases (hmemSlabs ca' t).mp ht with ⟨-, htm⟩ | ht
      · exact .inl htm
      · exact .inr ⟨ca', hca', ht⟩
  · rcases (hmemSlabs ca' t).mp ht with ⟨hcc, htm⟩ | ht
    · rw [htm, hself, hcc]
    · rw [hslab t (hneOwned t ((hi.listed t).mpr ⟨ca', hca', ht⟩))]
      exact hi.home ca' hca' t ht
  · by_cases htm : t = mem
    · rw [htm, hself]
      exact Nat.pos_of_ne_zero hobjs
    · rw [hslab t htm]
      apply hi.ready ca' hca' t
      by_cases hne : ca' = ca
      · rw [hne, hcaSelf] at ht
        rw [hne]
        rcases ht with ht | ht
        · exact .inl ((List.mem_cons.mp ht).resolve_left htm)
        · exact .inr ht
      · rw [hcaOther ca' hne] at ht
        exact ht
  · by_cases htm : t = mem
    · rw [htm]
      refine ⟨?_, ?_, ?_, ?_, ?_, ?_⟩
      · rw [hself]
      · rw [hself]
        exact (hi.shapes ca hca).slots_nodup mem
      · rw [hself, hshapeSelf]
        exact fun o ho => ho
      · rw [hself]
        show c.objs mem = (c.slots mem).length
        rw [CacheShape.slots, strides, List.length_map, List.length_range]
      · rw [hself]
        symm
        rw [heldIn_eq_zero]
        exact fun x hx hxm => hfresh (hxm ▸ hi.slabOf x hx)
      · rw [hshapeSelf]
        intro o ho
        exact if_pos ho
    · have hold := (List.mem_cons.mp ht).resolve_left htm
      have hcarved := hi.carved t hold
      refine ⟨?_, ?_, ?_, ?_, ?_, ?_⟩
      · rw [hslab t htm]
        exact hcarved.magic
      · rw [hslab t htm]
        exact hcarved.nodup
      · rw [hslab t htm, hshape t htm]
        exact hcarved.slots
      · rw [hslab t htm]
        exact hcarved.free
      · rw [hslab t htm]
        exact hcarved.inUse
      · rw [hshape t htm]
        intro o ho
        have hobj : h'.objSlab o = if o ∈ c.slots mem then mem else h.objSlab o := rfl
        rw [hobj, if_neg (hslots t hold o ho)]
        exact hcarved.owner o ho
  · exact List.mem_cons_of_mem _ (hi.slabOf x hx)
  · have hp := hi.placed x hx
    have hxm := hneOwned x.slab (hi.slabOf x hx)
    refine ⟨hp.past, ?_, ?_, ?_⟩
    · rw [hshape x.slab hxm]
      exact hp.slot
    · rw [hslab x.slab hxm]
      exact hp.taken
    · rw [hshape x.slab hxm]
      exact hp.size

/-- **`slab_create`** without a block changes nothing; otherwise it carves the new block. -/
theorem Inv.slabCreate_cases (hi : Inv bi h cs owned held others) {s : ℕ}
    (hr : h.slabCreate ca = some (s, h')) :
    (s = 0 ∧ (h.buddy.alloc (h.caches ca).order).1 = 0 ∧ h' = h) ∨
    (s ≠ 0 ∧ (h.caches ca).toCacheShape.objs s ≠ 0 ∧
      h' = h.withSlab ca s (h.buddy.alloc (h.caches ca).order).2 ∧
      Pages bi (h.buddy.alloc (h.caches ca).order).2 ((s, (h.caches ca).order) ::
        (cs.map (fun ca => (ca, 0)) ++ owned.map h.slabBlock ++ others))) := by
  rw [slabCreate] at hr
  simp only [] at hr
  rcases hi.pages.alloc (h.caches ca).order with ⟨hzero, hsame⟩ | ⟨hne, hpages⟩
  · left
    rw [if_pos hzero, hsame] at hr
    obtain ⟨rfl, rfl⟩ := Prod.mk.inj (Option.some.inj hr)
    exact ⟨rfl, hzero, rfl⟩
  · right
    rw [if_neg hne] at hr
    split at hr
    · cases hr
    · split at hr
      · cases hr
      · rename_i hobjs
        obtain ⟨rfl, rfl⟩ := Prod.mk.inj (Option.some.inj hr)
        exact ⟨hne, hobjs, rfl, hpages⟩

theorem sameKmalloc_setCache (hshape : (f (h.caches ca)).toCacheShape = (h.caches ca).toCacheShape) :
    SameKmalloc h (h.setCache ca f) := by
  refine ⟨rfl, rfl, rfl, fun ca' => ?_⟩
  by_cases hne : ca' = ca
  · rw [hne, setCache_self]
    exact hshape
  · rw [setCache_of_ne f hne]

/-- A cache is on a page, and no page is at 0. -/
theorem Inv.cache_ne_zero (hi : Inv bi h cs owned held others) (hca : ca ∈ cs) : ca ≠ 0 := by
  refine hi.pages.ne_zero (a := (ca, 0)) ?_
  exact List.mem_append_left _ (List.mem_append_left _ (List.mem_map_of_mem hca))

/-- **`kmemcache_alloc`** answers 0 only when `buddy_alloc` does, and otherwise an object that nobody holds. -/
theorem Inv.kmemcacheAlloc (hi : Inv bi h cs owned held others) (hca : ca ∈ cs) {size p : ℕ}
    (hsize : size ≤ (h.caches ca).objectSize) (hr : h.kmemcacheAlloc ca = some (p, h')) :
    SameKmalloc h h' ∧
    ((p = 0 ∧ (h.buddy.alloc (h.caches ca).order).1 = 0 ∧ Inv bi h' cs owned held others) ∨
      (p ≠ 0 ∧ ∃ owned', Inv bi h' cs owned' (⟨p, size, h'.objSlab (p - SIZEOF_SLAB_OBJ)⟩ :: held) others)) := by
  -- whichever slab is chosen, it is ready for an object to be taken
  have htake : ∀ {h₁ : Heap} {owned₁ : List ℕ} {s : ℕ}, SameKmalloc h h₁ → Inv bi h₁ cs owned₁ held others →
      s ∈ owned₁ → (h₁.slabs s).cache = ca → 0 < (h₁.slabs s).free → h₁.takeObject ca s = some (p, h') →
      SameKmalloc h h' ∧
        (p ≠ 0 ∧ ∃ owned', Inv bi h' cs owned' (⟨p, size, h'.objSlab (p - SIZEOF_SLAB_OBJ)⟩ :: held) others) := by
    intro h₁ owned₁ s hsame hi₁ hs hcache hfree htaken
    have hsize₁ : size ≤ (h₁.caches ca).objectSize := by
      rw [hsame.shape ca]
      exact hsize
    obtain ⟨q, h₂, htaken', hq, hslab, hsame', hi₂⟩ := hi₁.takeObject hs hcache hfree hsize₁
    rw [htaken] at htaken'
    obtain ⟨rfl, rfl⟩ := Prod.mk.inj (Option.some.inj htaken')
    rw [hslab]
    exact ⟨hsame.trans hsame', hq, owned₁, hi₂⟩
  have hrefl : SameKmalloc h h := ⟨rfl, rfl, rfl, fun _ => rfl⟩
  rw [Heap.kmemcacheAlloc, if_neg (hi.cache_ne_zero hca)] at hr
  cases hhalf : (h.caches ca).slabsPartial with
  | cons s rest =>
    rw [hhalf] at hr
    have hsp : s ∈ (h.caches ca).slabsPartial := by
      rw [hhalf]
      exact List.mem_cons_self
    have hsl : s ∈ (h.caches ca).slabs := KmemCache.mem_slabs.mpr (.inr (.inl hsp))
    obtain ⟨h1, h2⟩ := htake hrefl hi ((hi.listed s).mpr ⟨ca, hca, hsl⟩) (hi.home ca hca s hsl)
      (hi.ready ca hca s (.inl hsp)) hr
    exact ⟨h1, .inr h2⟩
  | nil =>
    rw [hhalf] at hr
    cases hfree : (h.caches ca).slabsFree with
    | cons s rest =>
      rw [hfree] at hr
      have hsf : s ∈ (h.caches ca).slabsFree := by
        rw [hfree]
        exact List.mem_cons_self
      have hsl : s ∈ (h.caches ca).slabs := KmemCache.mem_slabs.mpr (.inr (.inr hsf))
      have hs := (hi.listed s).mpr ⟨ca, hca, hsl⟩
      have hcache := hi.home ca hca s hsl
      have hpos := hi.ready ca hca s (.inr hsf)
      have hi₁ : Inv bi (h.setCache ca fun c => { c.moveToPartial s with freeSlabCount := c.freeSlabCount - 1 })
          cs owned held others := by
        refine hi.relink hs hcache rfl (fun t => KmemCache.mem_moveToPartial hsl) fun t ht => ?_
        have ht' : t = s ∨ t ∈ ((h.caches ca).unlink s).slabsPartial ∨ t ∈ ((h.caches ca).unlink s).slabsFree := by
          rcases ht with ht | ht
          · rcases List.mem_cons.mp ht with ht | ht
            · exact .inl ht
            · exact .inr (.inl ht)
          · exact .inr (.inr ht)
        rcases ht' with ht | ht
        · exact .inl ⟨ht, hpos⟩
        · exact .inr (KmemCache.mem_unlink_ready.mp ht)
      obtain ⟨h1, h2⟩ := htake (sameKmalloc_setCache rfl) hi₁ hs hcache hpos hr
      exact ⟨h1, .inr h2⟩
    | nil =>
      rw [hfree] at hr
      simp only [] at hr
      cases hcreate : h.slabCreate ca with
      | none =>
        rw [hcreate] at hr
        cases hr
      | some created =>
        obtain ⟨s, h₁⟩ := created
        rw [hcreate] at hr
        simp only [] at hr
        rcases hi.slabCreate_cases hcreate with ⟨hzero, hnone, hsame⟩ | ⟨hs0, hobjs, hwith, hpages⟩
        · rw [if_pos hzero] at hr
          obtain ⟨rfl, rfl⟩ := Prod.mk.inj (Option.some.inj hr)
          rw [hsame]
          exact ⟨hrefl, .inl ⟨rfl, hnone, hi⟩⟩
        · rw [if_neg hs0, hwith] at hr
          have hi₁ := hi.withSlab hca hpages hobjs
          set h₂ := (h.withSlab ca s (h.buddy.alloc (h.caches ca).order).2).setCache ca fun c =>
            { c with slabsPartial := s :: c.slabsPartial } with hh₂
          have hslab : h₂.slabs s = ⟨SLAB_MAGIC, ca, 0, (h.caches ca).toCacheShape.objs s,
              (h.caches ca).toCacheShape.slots s⟩ := Function.update_self ..
          have hsame₂ : SameKmalloc h h₂ := by
            refine ⟨rfl, rfl, rfl, fun ca' => ?_⟩
            by_cases hcc : ca' = ca
            · rw [hcc, hh₂, setCache_self]
              rfl
            · rw [hh₂, setCache_of_ne _ hcc]
              rfl
          obtain ⟨h1, h2⟩ := htake hsame₂ hi₁ List.mem_cons_self (by rw [hslab])
            (by rw [hslab]; exact Nat.pos_of_ne_zero hobjs) hr
          exact ⟨h1, .inr h2⟩

/-! ### Giving an object back -/

/-- The slab after an object was put back on its free list. -/
def given (o : ℕ) (s : Slab) : Slab :=
  { s with inUse := s.inUse - 1, free := s.free + 1, freelist := o :: s.freelist }

/-- The cache after an object of a slab with `free` free ones was put back. -/
def relisted (s free : ℕ) (c : KmemCache) : KmemCache :=
  if free + 1 = 1 then c.countDown.moveToPartial s else c.countDown

theorem relisted_shape (s free : ℕ) (c : KmemCache) : (relisted s free c).toCacheShape = c.toCacheShape := by
  rw [relisted]
  split <;> rfl

theorem Inv.head_ne (hi : Inv bi h cs owned (x :: held) others) {y : Obj} (hy : y ∈ held) : y.head ≠ x.head := by
  intro heq
  have hpx := (hi.placed x List.mem_cons_self).past
  have hpy := (hi.placed y (List.mem_cons_of_mem _ hy)).past
  have hptr : y.ptr = x.ptr := by
    rw [Obj.head, Obj.head] at heq
    omega
  apply (List.nodup_cons.mp hi.distinct).1
  rw [← hptr]
  exact List.mem_map_of_mem hy

/-- **Putting an object back** on the free list of its slab. -/
theorem Inv.giveObject (hi : Inv bi h cs owned (x :: held) others) (hca : (h.slabs x.slab).cache = ca) :
    Inv bi ((h.setSlab x.slab (given x.head)).setCache ca (relisted x.slab (h.slabs x.slab).free)) cs owned held
      others := by
  have hs := hi.slabOf x List.mem_cons_self
  have hp := hi.placed x List.mem_cons_self
  have hcarved := hi.carved x.slab hs
  obtain ⟨-, hsl⟩ := hi.cache_mem hs
  rw [hca] at hsl
  have hshape := relisted_shape x.slab (h.slabs x.slab).free (h.caches ca)
  set h' := (h.setSlab x.slab (given x.head)).setCache ca (relisted x.slab (h.slabs x.slab).free) with hh'
  have hself : h'.slabs x.slab = given x.head (h.slabs x.slab) := setSlab_self ..
  have hshapeOf : h'.shapeOf x.slab = h.shapeOf x.slab := shapeOf_update hshape rfl x.slab
  refine hi.update hs hca hshape (fun t => ?_) (fun t ht => ?_) rfl ?_
    (fun t ht => (heldIn_cons_of_ne held ht).symm) (fun y hy => ?_) (List.nodup_cons.mp hi.distinct).2
  · rw [relisted]
    split
    · exact KmemCache.mem_moveToPartial hsl
    · exact Iff.rfl
  · by_cases hts : t = x.slab
    · exact .inl ⟨hts, Nat.succ_pos _⟩
    · refine .inr ⟨hts, ?_⟩
      rw [relisted] at ht
      split at ht
      · have ht' : t ∈ ((h.caches ca).unlink x.slab).slabsPartial ∨
            t ∈ ((h.caches ca).unlink x.slab).slabsFree := by
          rcases ht with ht | ht
          · exact .inl ((List.mem_cons.mp ht).resolve_left hts)
          · exact .inr ht
        exact (KmemCache.mem_unlink_ready.mp ht').2
      · exact ht
  · refine ⟨?_, ?_, ?_, ?_, ?_, ?_⟩
    · rw [hself]
      exact hcarved.magic
    · rw [hself]
      exact List.nodup_cons.mpr ⟨hp.taken, hcarved.nodup⟩
    · rw [hself, hshapeOf]
      intro o ho
      rcases List.mem_cons.mp ho with rfl | ho
      · exact hp.slot
      · exact hcarved.slots o ho
    · rw [hself]
      show (h.slabs x.slab).free + 1 = (h.slabs x.slab).freelist.length + 1
      rw [hcarved.free]
    · rw [hself]
      show (h.slabs x.slab).inUse - 1 = _
      rw [hcarved.inUse, heldIn_cons_self, Nat.add_sub_cancel]
    · rw [hshapeOf]
      exact hcarved.owner
  · by_cases hys : y.slab = x.slab
    · have hpy := hi.placed y (List.mem_cons_of_mem _ hy)
      refine .inl ⟨hys, hpy.past, ?_, ?_, ?_⟩
      · rw [hys, hshapeOf, ← hys]
        exact hpy.slot
      · rw [hys, hself]
        intro hmem
        rcases List.mem_cons.mp hmem with heq | hmem
        · exact hi.head_ne hy heq
        · apply hpy.taken
          rw [hys]
          exact hmem
      · rw [hys, hshapeOf, ← hys]
        exact hpy.size
    · exact .inr ⟨hys, List.mem_cons_of_mem _ hy⟩

/-- A slab without held objects, unlinked and given back to the page allocator. -/
def withoutSlab (h : Heap) (ca s : ℕ) : Heap :=
  { ((h.setCache ca fun c => c.unlink s).setSlab s fun s => { s with magic := 0 }) with
    buddy := h.buddy.free s (h.caches ca).order }

theorem slabDestroy_eq (hmagic : (h.slabs s).magic = SLAB_MAGIC) :
    h.slabDestroy ca s = some (h.withoutSlab ca s) := by
  rw [slabDestroy, if_neg (not_not.mpr hmagic)]
  simp only []
  have horder : (((h.setCache ca fun c => c.unlink s).setSlab s fun s => { s with magic := 0 }).caches ca).order =
      (h.caches ca).order := by
    show ((h.setCache ca fun c => c.unlink s).caches ca).order = _
    rw [setCache_self]
    rfl
  rw [horder]
  rfl

/-- **Destroying a slab** nobody holds an object of. -/
theorem Inv.withoutSlab (hi : Inv bi h cs owned held others) (hs : s ∈ owned) (hca : (h.slabs s).cache = ca)
    (hnone : ∀ x ∈ held, x.slab ≠ s) : Inv bi (h.withoutSlab ca s) cs (owned.erase s) held others := by
  have hnodup := hi.owned_nodup
  have hmemErase : ∀ t, t ∈ owned.erase s ↔ t ≠ s ∧ t ∈ owned := fun t => hnodup.mem_erase_iff
  set h' := h.withoutSlab ca s with hh'
  have hslab : ∀ t, t ≠ s → h'.slabs t = h.slabs t := fun t ht => Function.update_of_ne ht ..
  have hcaSelf : h'.caches ca = (h.caches ca).unlink s := Function.update_self ..
  have hcaOther : ∀ ca', ca' ≠ ca → h'.caches ca' = h.caches ca' := fun ca' hne => Function.update_of_ne hne ..
  have hcaShape : ∀ ca', (h'.caches ca').toCacheShape = (h.caches ca').toCacheShape := by
    intro ca'
    by_cases hne : ca' = ca
    · rw [hne, hcaSelf]
      rfl
    · rw [hcaOther ca' hne]
  have hshape : ∀ t, t ≠ s → h'.shapeOf t = h.shapeOf t := by
    intro t ht
    rw [shapeOf, hslab t ht, hcaShape]
    rfl
  obtain ⟨hcaMem, -⟩ := hi.cache_mem hs
  rw [hca] at hcaMem
  have hsOnly : ∀ ca' ∈ cs, s ∈ (h.caches ca').slabs → ca' = ca :=
    fun ca' hca' hsl => (hi.home ca' hca' s hsl).symm.trans hca
  have hmem : ∀ ca' ∈ cs, ∀ t, t ∈ (h'.caches ca').slabs ↔ t ∈ (h.caches ca').slabs ∧ t ≠ s := by
    intro ca' hca' t
    by_cases hne : ca' = ca
    · rw [hne, hcaSelf]
      exact KmemCache.mem_unlink
    · rw [hcaOther ca' hne]
      exact ⟨fun ht => ⟨ht, fun hts => hne (hsOnly ca' hca' (hts ▸ ht))⟩, fun ht => ht.1⟩
  refine ⟨?_, fun ca' hca' => ?_, fun t => ?_, fun ca' hca' t ht => ?_, fun ca' hca' t ht => ?_, fun t ht => ?_,
    fun x hx => (hmemErase _).mpr ⟨hnone x hx, hi.slabOf x hx⟩, fun x hx => ?_, hi.distinct⟩
  · have hblocks : (owned.erase s).map h'.slabBlock = (owned.erase s).map h.slabBlock := by
      apply List.map_congr_left
      intro t ht
      rw [slabBlock, slabBlock, hshape t ((hmemErase t).mp ht).1]
    rw [hblocks]
    have hperm : (cs.map (fun ca => (ca, 0)) ++ owned.map h.slabBlock ++ others).Perm
        ((s, (h.caches ca).order) :: (cs.map (fun ca => (ca, 0)) ++ (owned.erase s).map h.slabBlock ++ others)) := by
      have hfront : (owned.map h.slabBlock).Perm (h.slabBlock s :: (owned.erase s).map h.slabBlock) :=
        (List.perm_cons_erase hs).map h.slabBlock
      have hblock : h.slabBlock s = (s, (h.caches ca).order) := by
        rw [slabBlock, shapeOf, hca]
      rw [hblock] at hfront
      rw [List.append_assoc, List.append_assoc]
      exact ((hfront.append_right others).append_left _).trans List.perm_middle
    exact (hi.pages.perm hperm).free
  · rw [hcaShape]
    exact hi.shapes ca' hca'
  · rw [hmemErase, hi.listed t]
    constructor
    · intro ⟨hts, ca', hca', ht⟩
      exact ⟨ca', hca', (hmem ca' hca' t).mpr ⟨ht, hts⟩⟩
    · intro ⟨ca', hca', ht⟩
      obtain ⟨ht, hts⟩ := (hmem ca' hca' t).mp ht
      exact ⟨hts, ca', hca', ht⟩
  · obtain ⟨ht, hts⟩ := (hmem ca' hca' t).mp ht
    rw [hslab t hts]
    exact hi.home ca' hca' t ht
  · have hold : t ≠ s ∧ (t ∈ (h.caches ca').slabsPartial ∨ t ∈ (h.caches ca').slabsFree) := by
      by_cases hne : ca' = ca
      · rw [hne, hcaSelf] at ht
        rw [hne]
        exact KmemCache.mem_unlink_ready.mp ht
      · rw [hcaOther ca' hne] at ht
        refine ⟨fun hts => hne (hsOnly ca' hca' ?_), ht⟩
        rw [← hts]
        exact KmemCache.mem_slabs.mpr (.inr ht)
    rw [hslab t hold.1]
    exact hi.ready ca' hca' t hold.2
  · obtain ⟨hts, ht⟩ := (hmemErase t).mp ht
    have hcarved := hi.carved t ht
    refine ⟨?_, ?_, ?_, ?_, ?_, ?_⟩
    · rw [hslab t hts]
      exact hcarved.magic
    · rw [hslab t hts]
      exact hcarved.nodup
    · rw [hslab t hts, hshape t hts]
      exact hcarved.slots
    · rw [hslab t hts]
      exact hcarved.free
    · rw [hslab t hts]
      exact hcarved.inUse
    · rw [hshape t hts]
      exact hcarved.owner
  · have hp := hi.placed x hx
    have hxs := hnone x hx
    refine ⟨hp.past, ?_, ?_, ?_⟩
    · rw [hshape _ hxs]
      exact hp.slot
    · rw [hslab _ hxs]
      exact hp.taken
    · rw [hshape _ hxs]
      exact hp.size

/-- `kmemcache_free` up to the check whether the slab is empty. -/
theorem kmemcacheFree_eq {p o : ℕ} (ho : p - SIZEOF_SLAB_OBJ = o) (hobj : h.objSlab o = s)
    (hca : (h.slabs s).cache = ca) (hmagic : (h.slabs s).magic = SLAB_MAGIC) :
    h.kmemcacheFree p =
      if (h.slabs s).inUse - 1 = 0 then
        if MAX_FREE_SLABS ≤
            (((h.setSlab s (given o)).setCache ca (relisted s (h.slabs s).free)).caches ca).freeSlabCount then
          ((h.setSlab s (given o)).setCache ca (relisted s (h.slabs s).free)).slabDestroy ca s
        else
          some (((h.setSlab s (given o)).setCache ca (relisted s (h.slabs s).free)).setCache ca fun c =>
            { c.moveToFree s with freeSlabCount := c.freeSlabCount + 1 })
      else some ((h.setSlab s (given o)).setCache ca (relisted s (h.slabs s).free)) := by
  have hgiven : (h.setSlab s fun s => { s with inUse := s.inUse - 1, free := s.free + 1, freelist := o :: s.freelist }) =
      h.setSlab s (given o) := rfl
  rw [Heap.kmemcacheFree]
  simp only []
  rw [ho, hobj, hca, if_neg (not_not.mpr hmagic), hgiven]
  set h₁ := h.setSlab s (given o) with hh₁
  have hself : h₁.slabs s = given o (h.slabs s) := setSlab_self ..
  have hfree : ((h₁.setCache ca fun c => c.countDown).slabs s).free = (h.slabs s).free + 1 := by
    show (h₁.slabs s).free = _
    rw [hself]
    rfl
  have hlist : (if ((h₁.setCache ca fun c => c.countDown).slabs s).free = 1 then
        (h₁.setCache ca fun c => c.countDown).setCache ca fun c => c.moveToPartial s
      else h₁.setCache ca fun c => c.countDown) =
      h₁.setCache ca (relisted s (h.slabs s).free) := by
    have hrelisted : relisted s (h.slabs s).free = fun c =>
        if (h.slabs s).free + 1 = 1 then c.countDown.moveToPartial s
        else c.countDown := by
      funext c
      rfl
    rw [hfree, hrelisted]
    by_cases hone : (h.slabs s).free + 1 = 1
    · simp only [if_pos hone, setCache_setCache]
    · simp only [if_neg hone]
  rw [hlist]
  have huse : ((h₁.setCache ca (relisted s (h.slabs s).free)).slabs s).inUse = (h.slabs s).inUse - 1 := by
    show (h₁.slabs s).inUse = _
    rw [hself]
    rfl
  rw [huse]

/-- **`kmemcache_free`** of a held object puts it back on the free list of the slab it came from; when that was the
last object of the slab in use, the slab may be given back as a whole. -/
theorem Inv.kmemcacheFree (hi : Inv bi h cs owned (x :: held) others) :
    ∃ h' owned', h.kmemcacheFree x.ptr = some h' ∧ SameKmalloc h h' ∧ Inv bi h' cs owned' held others ∧
      ((x.slab ∈ owned' ∧ (h'.slabs x.slab).freelist = x.head :: (h.slabs x.slab).freelist) ∨
        (x.slab ∉ owned' ∧ ∀ y ∈ held, y.slab ≠ x.slab)) := by
  have hs := hi.slabOf x List.mem_cons_self
  have hp := hi.placed x List.mem_cons_self
  have hcarved := hi.carved x.slab hs
  have hgive := hi.giveObject rfl
  have heq := kmemcacheFree_eq (p := x.ptr) (o := x.head) rfl (hcarved.owner x.head hp.slot) rfl hcarved.magic
  set ca := (h.slabs x.slab).cache with hca
  have hshape := relisted_shape x.slab (h.slabs x.slab).free (h.caches ca)
  have hsame : SameKmalloc h ((h.setSlab x.slab (given x.head)).setCache ca
      (relisted x.slab (h.slabs x.slab).free)) := sameKmalloc_update hshape
  set h₁ := (h.setSlab x.slab (given x.head)).setCache ca (relisted x.slab (h.slabs x.slab).free) with hh₁
  have hself : h₁.slabs x.slab = given x.head (h.slabs x.slab) := setSlab_self ..
  have hca₁ : (h₁.slabs x.slab).cache = ca := by
    rw [hself]
    rfl
  have hlist₁ : (h₁.slabs x.slab).freelist = x.head :: (h.slabs x.slab).freelist := by
    rw [hself]
    rfl
  rw [heq]
  by_cases hempty : (h.slabs x.slab).inUse - 1 = 0
  · have hnone : ∀ y ∈ held, y.slab ≠ x.slab := by
      rw [hcarved.inUse, heldIn_cons_self, Nat.add_sub_cancel] at hempty
      exact heldIn_eq_zero.mp hempty
    rw [if_pos hempty]
    by_cases hmany : MAX_FREE_SLABS ≤ (h₁.caches ca).freeSlabCount
    · have hmagic : (h₁.slabs x.slab).magic = SLAB_MAGIC := (hgive.carved x.slab hs).magic
      rw [if_pos hmany, slabDestroy_eq hmagic]
      refine ⟨_, _, rfl, ?_, hgive.withoutSlab hs hca₁ hnone, .inr ⟨?_, hnone⟩⟩
      · refine hsame.trans ⟨rfl, rfl, rfl, fun ca' => ?_⟩
        exact (sameKmalloc_setCache (h := h₁) (f := fun c => c.unlink x.slab) rfl).shape ca'
      · rw [hgive.owned_nodup.mem_erase_iff]
        exact fun hmem => hmem.1 rfl
    · rw [if_neg hmany]
      obtain ⟨-, hsl⟩ := hgive.cache_mem hs
      rw [hca₁] at hsl
      have hpos : 0 < (h₁.slabs x.slab).free := by
        rw [hself]
        exact Nat.succ_pos _
      refine ⟨_, owned, rfl, hsame.trans (sameKmalloc_setCache rfl), ?_, .inl ⟨hs, hlist₁⟩⟩
      refine hgive.relink hs hca₁ rfl (fun t => KmemCache.mem_moveToFree hsl) fun t ht => ?_
      by_cases hts : t = x.slab
      · exact .inl ⟨hts, hpos⟩
      · refine .inr (KmemCache.mem_unlink_ready.mp ?_)
        rcases ht with ht | ht
        · exact .inl ht
        · exact .inr ((List.mem_cons.mp ht).resolve_left hts)
  · rw [if_neg hempty]
    exact ⟨h₁, owned, rfl, hsame, hgive, .inl ⟨hs, hlist₁⟩⟩

end

end Heap

end LizardOs.Mm
