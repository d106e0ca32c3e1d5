import LizardOs.Lib.Strides
import LizardOs.Mm.Buddy

/-!
# Slabs and the kernel heap

`slab.c` and `kmalloc.c`.  A cache hands out objects of one size from slabs, blocks of the page allocator that
begin with a `struct slab` and are carved into objects behind it.  Each object has a `struct slab_obj` in front of
it that names its slab.  A slab or a cache is known by its address; the lists of a cache hold the addresses of its
slabs, first entry first, and the free list of a slab the addresses of its free object headers.

`none` stands for a kernel that has stopped: by `kpanic`, or by a fault at a null pointer.
-/

namespace LizardOs.Mm

open LizardOs.Lib

def SLAB_MAGIC : ℕ := 0xDEADBEEF
def MAX_FREE_SLABS : ℕ := 3

/-- `sizeof(struct slab)`, `sizeof(struct slab_obj)`, `sizeof(struct cache_node)` and `sizeof(void *)`. -/
def SIZEOF_SLAB : ℕ := 56
def SIZEOF_SLAB_OBJ : ℕ := 16
def SIZEOF_CACHE_NODE : ℕ := 32
def SIZEOF_PTR : ℕ := 8

/-- The sizes of a cache, which never change. -/
structure CacheShape where
  objectSize : ℕ
  realObjectSize : ℕ
  align : ℕ
  order : ℕ

/-- `struct kmem_cache`, without its name, flags, lock and the constructors, which `kmalloc` never sets.  `inUse`
counts modulo 2^32. -/
structure KmemCache extends CacheShape where
  inUse : ℕ
  freeSlabCount : ℕ
  slabsFull : List ℕ
  slabsPartial : List ℕ
  slabsFree : List ℕ

/-- `struct slab`. -/
structure Slab where
  magic : ℕ
  cache : ℕ
  inUse : ℕ
  free : ℕ
  freelist : List ℕ

/-- `struct cache_node`. -/
structure CacheNode where
  addr : ℕ
  size : ℕ
  cache : ℕ

/-- The page allocator, and what `slab.c` and `kmalloc.c` keep in its blocks: `objSlab` is the `slab` word of the
object header at an address. -/
structure Heap where
  buddy : Buddy
  caches : ℕ → KmemCache
  slabs : ℕ → Slab
  objSlab : ℕ → ℕ
  kmallocInitialized : Bool
  kmallocNodeCache : ℕ
  kmallocCacheList : List CacheNode

namespace CacheShape

/-- The size of a slab. -/
def slabSize (c : CacheShape) : ℕ := PAGE_SIZE * 2 ^ c.order

def slabEnd (c : CacheShape) (slab : ℕ) : ℕ := (slab + c.slabSize) % 2 ^ 64

/-- Where the objects of a slab begin. -/
def objStart (c : CacheShape) (slab : ℕ) : ℕ := alignUpTo (slab + SIZEOF_SLAB) c.align

/-- `objects_per_slab`, as `kmemcache_create` computes it. -/
def objectsPerSlab (c : CacheShape) : ℕ := (c.slabSize - SIZEOF_SLAB) / c.realObjectSize

/-- How many objects a slab has. -/
def objs (c : CacheShape) (slab : ℕ) : ℕ := (c.slabEnd slab - c.objStart slab) / c.realObjectSize

/-- The object headers of a slab. -/
def slots (c : CacheShape) (slab : ℕ) : List ℕ := strides (c.objStart slab) c.realObjectSize (c.objs slab)

end CacheShape

/-- `list_del` from the list of a cache that holds the slab. -/
def KmemCache.unlink (c : KmemCache) (slab : ℕ) : KmemCache :=
  { c with
    slabsFull := c.slabsFull.filter fun s => decide (s ≠ slab)
    slabsPartial := c.slabsPartial.filter fun s => decide (s ≠ slab)
    slabsFree := c.slabsFree.filter fun s => decide (s ≠ slab) }

/-- `list_move` to the front of `slabs_full`, `slabs_partial` or `slabs_free`. -/
def KmemCache.moveToFull (c : KmemCache) (slab : ℕ) : KmemCache :=
  { c.unlink slab with slabsFull := slab :: (c.unlink slab).slabsFull }

def KmemCache.moveToPartial (c : KmemCache) (slab : ℕ) : KmemCache :=
  { c.unlink slab with slabsPartial := slab :: (c.unlink slab).slabsPartial }

def KmemCache.moveToFree (c : KmemCache) (slab : ℕ) : KmemCache :=
  { c.unlink slab with slabsFree := slab :: (c.unlink slab).slabsFree }

/-- `cache->in_use++` and `cache->in_use--`. -/
def KmemCache.countUp (c : KmemCache) : KmemCache :=
  { c with inUse := if c.inUse = 2 ^ 32 - 1 then 0 else c.inUse + 1 }

def KmemCache.countDown (c : KmemCache) : KmemCache :=
  { c with inUse := if c.inUse = 0 then 2 ^ 32 - 1 else c.inUse - 1 }

namespace Heap

/-- Change one cache. -/
def setCache (h : Heap) (cache : ℕ) (f : KmemCache → KmemCache) : Heap :=
  { h with caches := Function.update h.caches cache (f (h.caches cache)) }

/-- Change one slab. -/
def setSlab (h : Heap) (slab : ℕ) (f : Slab → Slab) : Heap :=
  { h with slabs := Function.update h.slabs slab (f (h.slabs slab)) }

/-- `slab_create`: the address of the slab, or 0.  The loop that builds the free list runs from the last object to
the first, so the first one is in front. -/
def slabCreate (h : Heap) (cache : ℕ) : Option (ℕ × Heap) :=
  let c := (h.caches cache).toCacheShape
  let mem := (h.buddy.alloc c.order).1
  let h := { h with buddy := (h.buddy.alloc c.order).2 }
  if mem = 0 then some (0, h)
  else if c.slabEnd mem ≤ c.objStart mem then none
  else if c.objs mem = 0 then none
  else
    some (mem, { h with
      slabs := Function.update h.slabs mem ⟨SLAB_MAGIC, cache, 0, c.objs mem, c.slots mem⟩
      objSlab := fun o => if o ∈ c.slots mem then mem else h.objSlab o })

/-- `slab_destroy`. -/
def slabDestroy (h : Heap) (cache slab : ℕ) : Option Heap :=
  if (h.slabs slab).magic ≠ SLAB_MAGIC then none
  else
    let h := h.setCache cache fun c => c.unlink slab
    let h := h.setSlab slab fun s => { s with magic := 0 }
    some { h with buddy := h.buddy.free slab (h.caches cache).order }

/-- `while (((size_t)PAGE_SIZE << cache->order) < needed) cache->order++`. -/
def slabOrder (needed : ℕ) : ℕ → ℕ → ℕ
  | 0, order => order
  | fuel + 1, order => if PAGE_SIZE * 2 ^ order < needed then slabOrder needed fuel (order + 1) else order

/-- The sizes `kmemcache_create` computes.  The sum and the shifts are exact here, and the loop stops at the order whose
slabs are as large as the address space.  In the source both are 64-bit numbers: for an object of 2^63 - 55 bytes or more
the loop shifts the page out of the word and goes on, or the sum wraps and no object fits into a slab, which is a panic.
There this cache is one whose slabs the page allocator never has.  `kmalloc.c` asks for 128 KiB at most. -/
def shapeFor (objSize : ℕ) : CacheShape where
  objectSize := objSize
  realObjectSize := alignUpTo (SIZEOF_SLAB_OBJ + objSize) SIZEOF_PTR
  align := SIZEOF_PTR
  order := slabOrder (SIZEOF_SLAB + alignUpTo (SIZEOF_SLAB_OBJ + objSize) SIZEOF_PTR) 52 0

/-- `kmemcache_create`: the address of the cache, or 0. -/
def kmemcacheCreate (h : Heap) (objSize : ℕ) : Option (ℕ × Heap) :=
  let mem := (h.buddy.alloc 0).1
  let h := { h with buddy := (h.buddy.alloc 0).2 }
  if mem = 0 then some (0, h)
  else
    let c := shapeFor objSize
    if c.objectsPerSlab = 0 then none
    else some (mem, { h with caches := Function.update h.caches mem ⟨c, 0, 0, [], [], []⟩ })

/-- The end of `kmemcache_alloc`: take the first free object of a slab. -/
def takeObject (h : Heap) (cache slab : ℕ) : Option (ℕ × Heap) :=
  match (h.slabs slab).freelist with
  | [] => none
  | o :: rest =>
      let h := h.setSlab slab fun s => { s with inUse := s.inUse + 1, free := s.free - 1, freelist := rest }
      let h := h.setCache cache fun c => c.countUp
      let h := if (h.slabs slab).free = 0 then h.setCache cache fun c => c.moveToFull slab else h
      some (o + SIZEOF_SLAB_OBJ, h)

/-- `kmemcache_alloc`: the address of an object, or 0. -/
def kmemcacheAlloc (h : Heap) (cache : ℕ) : Option (ℕ × Heap) :=
  if cache = 0 then none
  else
    match (h.caches cache).slabsPartial with
    | slab :: _ => h.takeObject cache slab
    | [] =>
        match (h.caches cache).slabsFree with
        | slab :: _ =>
            (h.setCache cache fun c =>
              { c.moveToPartial slab with freeSlabCount := c.freeSlabCount - 1 }).takeObject cache slab
        | [] =>
            match h.slabCreate cache with
            | none => none
            | some (slab, h) =>
                if slab = 0 then some (0, h)
                else
                  (h.setCache cache fun c => { c with slabsPartial := slab :: c.slabsPartial }).takeObject cache slab

/-- `kmemcache_free` of an object that is not null. -/
def kmemcacheFree (h : Heap) (obj : ℕ) : Option Heap :=
  let o := obj - SIZEOF_SLAB_OBJ
  let slab := h.objSlab o
  let cache := (h.slabs slab).cache
  if (h.slabs slab).magic ≠ SLAB_MAGIC then none
  else
    let h := h.setSlab slab fun s =>
      { s with inUse := s.inUse - 1, free := s.free + 1, freelist := o :: s.freelist }
    let h := h.setCache cache fun c => c.countDown
    let h := if (h.slabs slab).free = 1 then h.setCache cache fun c => c.moveToPartial slab else h
    if (h.slabs slab).inUse = 0 then
      if MAX_FREE_SLABS ≤ (h.caches cache).freeSlabCount then h.slabDestroy cache slab
      else some (h.setCache cache fun c => { c.moveToFree slab with freeSlabCount := c.freeSlabCount + 1 })
    else some h

/-- `KMALLOC_SIZES`. -/
def KMALLOC_SIZES : List ℕ :=
  [8, 16, 32, 64, 128, 256, 512, 1024, 2048, 4096, 8192, 16384, 32768, 65536, 131072]

/-- `CREATE_CACHE`.  Without a node the store to it faults; the cache in the node may be null. -/
def createCache (h : Heap) (size : ℕ) : Option Heap :=
  match h.kmemcacheAlloc h.kmallocNodeCache with
  | none => none
  | some (node, h) =>
      if node = 0 then none
      else
        match h.kmemcacheCreate size with
        | none => none
        | some (cache, h) => some { h with kmallocCacheList := ⟨node, size, cache⟩ :: h.kmallocCacheList }

/-- `kmalloc_init`. -/
def kmallocInit (h : Heap) : Option Heap :=
  match ({ h with kmallocCacheList := [] } : Heap).kmemcacheCreate SIZEOF_CACHE_NODE with
  | none => none
  | some (cache, h) =>
      match KMALLOC_SIZES.foldlM createCache { h with kmallocNodeCache := cache } with
      | none => none
      | some h => some { h with kmallocInitialized := true }

/-- The start of `kmalloc`: the first call sets up the caches. -/
def kmallocReady (h : Heap) : Option Heap := if h.kmallocInitialized = true then some h else h.kmallocInit

/-- The search of `kmalloc`: the smallest size class that is large enough. -/
def bestNode (l : List CacheNode) (size : ℕ) : Option CacheNode :=
  l.foldl (fun best node =>
    if size ≤ node.size ∧ best.all (fun b => decide (node.size < b.size)) = true then some node else best) none

/-- `kmalloc`: an address, or 0. -/
def kmalloc (h : Heap) (size : ℕ) : Option (ℕ × Heap) :=
  match h.kmallocReady with
  | none => none
  | some h =>
      match bestNode h.kmallocCacheList size with
      | none => none
      | some node => h.kmemcacheAlloc node.cache

/-- `kfree`. -/
def kfree (h : Heap) (ptr : ℕ) : Option Heap :=
  if ptr = 0 then some h
  else if h.kmallocInitialized = false then none
  else if (h.slabs (h.objSlab (ptr - SIZEOF_SLAB_OBJ))).magic = SLAB_MAGIC then h.kmemcacheFree ptr
  else none

end Heap

end LizardOs.Mm
