import LizardOs.Mm.Heap

/-!
# The books of the slab caches

What `slab.c` counts, and on which of its three lists a slab is: the list follows from the counters of the slab, and
the counters of the cache from those of its slabs.  A call passes through states where the slab it works on is on
`slabs_partial` with no object in use; `loose` names these slabs.
-/

namespace LizardOs.Mm

open LizardOs.Lib

/-! ### Moving a slab between the lists -/

namespace KmemCache

variable {c : KmemCache} {s t : ℕ}

theorem slabs_unlink (c : KmemCache) (s : ℕ) : (c.unlink s).slabs = c.slabs.filter fun t => decide (t ≠ s) := by
  simp only [slabs, unlink, List.filter_append]

theorem erase_eq_filter_ne {l : List ℕ} (hn : l.Nodup) (s : ℕ) : l.erase s = l.filter fun t => decide (t ≠ s) := by
  rw [hn.erase_eq_filter]
  apply List.filter_congr
  intro t _
  rw [bne, Bool.eq_iff_iff, Bool.not_eq_true', beq_eq_false_iff_ne, decide_eq_true_eq]

theorem slabs_eq_cons_unlink (hn : c.slabs.Nodup) (hs : s ∈ c.slabs) : c.slabs.Perm (s :: (c.unlink s).slabs) := by
  rw [slabs_unlink, ← erase_eq_filter_ne hn]
  exact List.perm_cons_erase hs

theorem slabs_moveToFull (hn : c.slabs.Nodup) (hs : s ∈ c.slabs) : c.slabs.Perm (c.moveToFull s).slabs :=
  slabs_eq_cons_unlink hn hs

theorem slabs_moveToPartial (hn : c.slabs.Nodup) (hs : s ∈ c.slabs) : c.slabs.Perm (c.moveToPartial s).slabs := by
  refine (slabs_eq_cons_unlink hn hs).trans ?_
  rw [slabs, slabs, List.append_assoc, List.append_assoc]
  exact List.perm_middle.symm

theorem slabs_moveToFree (hn : c.slabs.Nodup) (hs : s ∈ c.slabs) : c.slabs.Perm (c.moveToFree s).slabs := by
  refine (slabs_eq_cons_unlink hn hs).trans ?_
  rw [slabs]
  exact List.perm_middle.symm

/-- The three lists have no slab in common. -/
theorem disjoint_of_nodup (hn : c.slabs.Nodup) :
    (∀ t ∈ c.slabsFull, t ∉ c.slabsPartial ∧ t ∉ c.slabsFree) ∧ ∀ t ∈ c.slabsPartial, t ∉ c.slabsFree := by
  rw [slabs] at hn
  obtain ⟨hfp, -, hd⟩ := List.nodup_append.mp hn
  obtain ⟨-, -, hd'⟩ := List.nodup_append.mp hfp
  refine ⟨fun t ht => ⟨fun hp => hd' t ht t hp rfl, fun hf => ?_⟩, fun t ht hf => ?_⟩
  · exact hd t (List.mem_append_left _ ht) t hf rfl
  · exact hd t (List.mem_append_right _ ht) t hf rfl

theorem nodup_slabsFree (hn : c.slabs.Nodup) : c.slabsFree.Nodup := (List.nodup_append.mp hn).2.1

/-- The objects in use in all slabs of the cache. -/
def inUseSum (c : KmemCache) (f : ℕ → Slab) : ℕ := (c.slabs.map fun s => (f s).inUse).sum

variable {c' : KmemCache} {f f' : ℕ → Slab}

theorem inUseSum_perm (hp : c.slabs.Perm c'.slabs) : c.inUseSum f = c'.inUseSum f :=
  (hp.map fun s => (f s).inUse).sum_nat

theorem inUseSum_congr (huse : ∀ t ∈ c.slabs, (f' t).inUse = (f t).inUse) : c.inUseSum f' = c.inUseSum f := by
  rw [inUseSum, inUseSum, List.map_congr_left huse]

theorem inUseSum_unlink (hn : c.slabs.Nodup) (hs : s ∈ c.slabs) :
    c.inUseSum f = (f s).inUse + (c.unlink s).inUseSum f := by
  rw [inUseSum, ((slabs_eq_cons_unlink hn hs).map fun t => (f t).inUse).sum_nat, List.map_cons, List.sum_cons, inUseSum]

/-- Changing one slab changes the sum by what its own counter changes. -/
theorem inUseSum_update (hn : c.slabs.Nodup) (hs : s ∈ c.slabs) (slab : Slab) :
    c.inUseSum (Function.update f s slab) + (f s).inUse = c.inUseSum f + slab.inUse := by
  have hrest : (c.unlink s).inUseSum (Function.update f s slab) = (c.unlink s).inUseSum f :=
    inUseSum_congr fun t ht => by rw [Function.update_of_ne (mem_unlink.mp ht).2]
  rw [inUseSum_unlink hn hs, inUseSum_unlink (f := f) hn hs, hrest, Function.update_self]
  omega

theorem countUp_inUse {n : ℕ} (hn : c.inUse = n % 2 ^ 32) : c.countUp.inUse = (n + 1) % 2 ^ 32 := by
  show (if c.inUse = 2 ^ 32 - 1 then 0 else c.inUse + 1) = _
  split <;> omega

theorem countDown_inUse {n : ℕ} (hn : c.inUse = (n + 1) % 2 ^ 32) : c.countDown.inUse = n % 2 ^ 32 := by
  show (if c.inUse = 0 then 2 ^ 32 - 1 else c.inUse - 1) = _
  split <;> omega

end KmemCache

/-! ### The ledger of a cache -/

/-- The lists and the counters of a cache fit the counters of its slabs; only `loose` slabs may be on `slabs_partial`
with no object in use. -/
structure Ledger (c : KmemCache) (f : ℕ → Slab) (loose : ℕ → Prop) : Prop where
  nodup : c.slabs.Nodup
  full : ∀ s ∈ c.slabsFull, (f s).free = 0
  half : ∀ s ∈ c.slabsPartial, (f s).free ≠ 0 ∧ ((f s).inUse ≠ 0 ∨ loose s)
  idle : ∀ s ∈ c.slabsFree, (f s).inUse = 0
  total : ∀ s ∈ c.slabs, (f s).free + (f s).inUse = c.objectsPerSlab
  objs : ∀ s ∈ c.slabs, c.objs s = c.objectsPerSlab
  room : 0 < c.objectsPerSlab
  freeCount : c.freeSlabCount = c.slabsFree.length
  freeMax : c.freeSlabCount ≤ MAX_FREE_SLABS
  used : c.inUse = c.inUseSum f % 2 ^ 32

/-- No slab is loose between two calls. -/
def Settled (_ : ℕ) : Prop := False

namespace Ledger

variable {c : KmemCache} {f f' : ℕ → Slab} {loose : ℕ → Prop} {s o : ℕ}

/-- The ledger looks at the counters of the slabs of the cache only. -/
theorem congr (hl : Ledger c f loose) (hfree : ∀ t ∈ c.slabs, (f' t).free = (f t).free)
    (huse : ∀ t ∈ c.slabs, (f' t).inUse = (f t).inUse) : Ledger c f' loose where
  nodup := hl.nodup
  full := fun t ht => (hfree t (c.mem_slabs.mpr (.inl ht))).trans (hl.full t ht)
  half := fun t ht => by
    rw [hfree t (c.mem_slabs.mpr (.inr (.inl ht))), huse t (c.mem_slabs.mpr (.inr (.inl ht)))]
    exact hl.half t ht
  idle := fun t ht => (huse t (c.mem_slabs.mpr (.inr (.inr ht)))).trans (hl.idle t ht)
  total := fun t ht => by
    rw [hfree t ht, huse t ht]
    exact hl.total t ht
  objs := hl.objs
  room := hl.room
  freeCount := hl.freeCount
  freeMax := hl.freeMax
  used := by
    rw [KmemCache.inUseSum_congr huse]
    exact hl.used

/-- A loose slab with an object in use is settled. -/
theorem settle (hl : Ledger c f (· = s)) (huse : (f s).inUse ≠ 0) : Ledger c f Settled where
  nodup := hl.nodup
  full := hl.full
  half := fun t ht => by
    obtain ⟨hfree, hcase⟩ := hl.half t ht
    refine ⟨hfree, .inl ?_⟩
    rcases hcase with hne | hts
    · exact hne
    · rw [hts]
      exact huse
  idle := hl.idle
  total := hl.total
  objs := hl.objs
  room := hl.room
  freeCount := hl.freeCount
  freeMax := hl.freeMax
  used := hl.used

theorem loosen (hl : Ledger c f Settled) : Ledger c f loose where
  nodup := hl.nodup
  full := hl.full
  half := fun t ht => ⟨(hl.half t ht).1, .inl ((hl.half t ht).2.resolve_right id)⟩
  idle := hl.idle
  total := hl.total
  objs := hl.objs
  room := hl.room
  freeCount := hl.freeCount
  freeMax := hl.freeMax
  used := hl.used

/-! ### Choosing a slab -/

/-- An idle slab is put on `slabs_partial`. -/
theorem toPartial (hl : Ledger c f Settled) (hs : s ∈ c.slabsFree) :
    Ledger { c.moveToPartial s with freeSlabCount := c.freeSlabCount - 1 } f (· = s) := by
  have hmem : s ∈ c.slabs := c.mem_slabs.mpr (.inr (.inr hs))
  have hperm := KmemCache.slabs_moveToPartial hl.nodup hmem
  have hsub : ∀ t ∈ (c.moveToPartial s).slabs, t ∈ c.slabs := fun t ht => hperm.mem_iff.mpr ht
  have hcount := hl.freeCount
  have hmax := hl.freeMax
  refine ⟨hperm.nodup_iff.mp hl.nodup, fun t ht => hl.full t (List.mem_filter.mp ht).1, fun t ht => ?_,
    fun t ht => hl.idle t (List.mem_filter.mp ht).1, fun t ht => hl.total t (hsub t ht),
    fun t ht => hl.objs t (hsub t ht), hl.room, ?_, ?_, ?_⟩
  · rcases List.mem_cons.mp ht with rfl | ht
    · refine ⟨?_, .inr rfl⟩
      have htotal := hl.total t hmem
      have hroom := hl.room
      rw [hl.idle t hs] at htotal
      omega
    · obtain ⟨hfree, hcase⟩ := hl.half t (List.mem_filter.mp ht).1
      exact ⟨hfree, .inl (hcase.resolve_right id)⟩
  · show c.freeSlabCount - 1 = (c.slabsFree.filter fun t => decide (t ≠ s)).length
    rw [← KmemCache.erase_eq_filter_ne (KmemCache.nodup_slabsFree hl.nodup), List.length_erase_of_mem hs, hcount]
  · show c.freeSlabCount - 1 ≤ MAX_FREE_SLABS
    omega
  · show c.inUse = _
    rw [hl.used]
    exact congrArg (· % 2 ^ 32) (KmemCache.inUseSum_perm hperm)

/-- A slab that was just carved is put on `slabs_partial`. -/
theorem add (hl : Ledger c f Settled) (hs : s ∉ c.slabs) (hfree : (f' s).free = c.objectsPerSlab)
    (huse : (f' s).inUse = 0) (hobjs : c.objs s = c.objectsPerSlab) (hold : ∀ t ∈ c.slabs, f' t = f t) :
    Ledger { c with slabsPartial := s :: c.slabsPartial } f' (· = s) := by
  have hl' : Ledger c f' Settled := hl.congr (fun t ht => by rw [hold t ht]) (fun t ht => by rw [hold t ht])
  have hperm : (s :: c.slabs).Perm ({ c with slabsPartial := s :: c.slabsPartial } : KmemCache).slabs := by
    rw [KmemCache.slabs, KmemCache.slabs, List.append_assoc, List.append_assoc]
    exact List.perm_middle.symm
  have hmem : ∀ t ∈ ({ c with slabsPartial := s :: c.slabsPartial } : KmemCache).slabs, t = s ∨ t ∈ c.slabs :=
    fun t ht => List.mem_cons.mp (hperm.mem_iff.mpr ht)
  refine ⟨hperm.nodup_iff.mp (List.nodup_cons.mpr ⟨hs, hl.nodup⟩), hl'.full, fun t ht => ?_, hl'.idle, fun t ht => ?_,
    fun t ht => ?_, hl.room, hl.freeCount, hl.freeMax, ?_⟩
  · rcases List.mem_cons.mp ht with rfl | ht
    · rw [hfree]
      exact ⟨Nat.pos_iff_ne_zero.mp hl.room, .inr rfl⟩
    · obtain ⟨hne, hcase⟩ := hl'.half t ht
      exact ⟨hne, .inl (hcase.resolve_right id)⟩
  · rcases hmem t ht with rfl | ht
    · rw [hfree, huse]
      rfl
    · exact hl'.total t ht
  · rcases hmem t ht with rfl | ht
    · exact hobjs
    · exact hl.objs t ht
  · have hsum := (hperm.map fun t => (f' t).inUse).sum_nat
    rw [List.map_cons, List.sum_cons, huse, Nat.zero_add] at hsum
    show c.inUse = _
    rw [hl'.used]
    exact congrArg (· % 2 ^ 32) hsum

/-! ### Taking an object and giving it back -/

/-- A slab that is not on the list of idle slabs stays so when it moves. -/
theorem slabsFree_unlink (hs : s ∉ c.slabsFree) : (c.unlink s).slabsFree = c.slabsFree := by
  apply List.filter_eq_self.mpr
  intro t ht
  rw [decide_eq_true_eq]
  exact fun hts => hs (hts ▸ ht)

/-- A slab that keeps the sum of its two counters still fits the books. -/
theorem total_update (hl : Ledger c f loose) (hs : s ∈ c.slabs) {slab : Slab}
    (hslab : slab.free + slab.inUse = (f s).free + (f s).inUse) :
    ∀ t ∈ c.slabs,
      (Function.update f s slab t).free + (Function.update f s slab t).inUse = c.objectsPerSlab := by
  intro t ht
  by_cases hts : t = s
  · rw [hts, Function.update_self, hslab]
    exact hl.total s hs
  · rw [Function.update_of_ne hts]
    exact hl.total t ht

/-- The first free object of a slab is taken; the slab moves to `slabs_full` when that was the last one. -/
theorem take (hl : Ledger c f (· = s)) (hs : s ∈ c.slabsPartial) :
    Ledger (if (f s).free - 1 = 0 then c.countUp.moveToFull s else c.countUp)
      (Function.update f s (Heap.taken (f s))) Settled := by
  have hmem : s ∈ c.slabs := c.mem_slabs.mpr (.inr (.inl hs))
  obtain ⟨hnotFull, hnotFree⟩ := KmemCache.disjoint_of_nodup hl.nodup
  obtain ⟨hpos, -⟩ := hl.half s hs
  have hself : Function.update f s (Heap.taken (f s)) s = Heap.taken (f s) := Function.update_self ..
  have hother : ∀ t, t ≠ s → Function.update f s (Heap.taken (f s)) t = f t :=
    fun t ht => Function.update_of_ne ht ..
  set f' := Function.update f s (Heap.taken (f s)) with hf'
  have hfree : (f' s).free = (f s).free - 1 := by
    rw [hself]
    rfl
  have huse : (f' s).inUse = (f s).inUse + 1 := by
    rw [hself]
    rfl
  have htotal : ∀ t ∈ c.slabs, (f' t).free + (f' t).inUse = c.objectsPerSlab :=
    hl.total_update hmem (by rw [← hself, hfree, huse]; omega)
  have hsum : c.inUseSum f' = c.inUseSum f + 1 := by
    have hupdate : c.inUseSum f' + (f s).inUse = c.inUseSum f + (Heap.taken (f s)).inUse :=
      KmemCache.inUseSum_update hl.nodup hmem _
    rw [← hself, huse] at hupdate
    omega
  have hfull : ∀ t ∈ c.slabsFull, (f' t).free = 0 := by
    intro t ht
    rw [hother t fun hts => (hnotFull t ht).1 (hts ▸ hs)]
    exact hl.full t ht
  have hidle : ∀ t ∈ c.slabsFree, (f' t).inUse = 0 := by
    intro t ht
    rw [hother t fun hts => hnotFree s hs (hts ▸ ht)]
    exact hl.idle t ht
  have hhalf : ∀ t ∈ c.slabsPartial, t ≠ s → (f' t).free ≠ 0 ∧ ((f' t).inUse ≠ 0 ∨ Settled t) := by
    intro t ht hts
    rw [hother t hts]
    obtain ⟨hne, hcase⟩ := hl.half t ht
    exact ⟨hne, .inl (hcase.resolve_right hts)⟩
  split
  · rename_i hlast
    have hperm : c.slabs.Perm (c.countUp.moveToFull s).slabs :=
      KmemCache.slabs_moveToFull (c := c.countUp) hl.nodup hmem
    refine ⟨hperm.nodup_iff.mp hl.nodup, fun t ht => ?_, fun t ht => ?_, fun t ht => ?_, fun t ht => ?_,
      fun t ht => hl.objs t (hperm.mem_iff.mpr ht), hl.room, ?_, hl.freeMax, ?_⟩
    · rcases List.mem_cons.mp ht with rfl | ht
      · exact hfree.trans hlast
      · exact hfull t (List.mem_filter.mp ht).1
    · obtain ⟨ht, hts⟩ := List.mem_filter.mp ht
      exact hhalf t ht (of_decide_eq_true hts)
    · exact hidle t (List.mem_filter.mp ht).1
    · exact htotal t (hperm.mem_iff.mpr ht)
    · have hsame : (c.countUp.moveToFull s).slabsFree = c.slabsFree := slabsFree_unlink (hnotFree s hs)
      rw [hsame]
      exact hl.freeCount
    · rw [← KmemCache.inUseSum_perm hperm, hsum]
      exact KmemCache.countUp_inUse hl.used
  · rename_i hmore
    refine ⟨hl.nodup, hfull, fun t ht => ?_, hidle, htotal, hl.objs, hl.room, hl.freeCount, hl.freeMax, ?_⟩
    · by_cases hts : t = s
      · rw [hts, hfree, huse]
        exact ⟨hmore, .inl (Nat.succ_ne_zero _)⟩
      · exact hhalf t ht hts
    · show c.countUp.inUse = c.inUseSum f' % 2 ^ 32
      rw [hsum]
      exact KmemCache.countUp_inUse hl.used

/-- A slab of which an object is in use is not idle. -/
theorem not_mem_slabsFree (hl : Ledger c f loose) (huse : (f s).inUse ≠ 0) : s ∉ c.slabsFree :=
  fun hs => huse (hl.idle s hs)

/-- An object is put back; the slab, which had one in use, is on `slabs_partial` then. -/
theorem give (hl : Ledger c f Settled) (hs : s ∈ c.slabs) (huse : (f s).inUse ≠ 0) (o : ℕ) :
    Ledger (Heap.relisted s (f s).free c) (Function.update f s (Heap.given o (f s))) (· = s) ∧
      s ∈ (Heap.relisted s (f s).free c).slabsPartial := by
  have hnotFree := hl.not_mem_slabsFree huse
  have hself : Function.update f s (Heap.given o (f s)) s = Heap.given o (f s) := Function.update_self ..
  have hother : ∀ t, t ≠ s → Function.update f s (Heap.given o (f s)) t = f t :=
    fun t ht => Function.update_of_ne ht ..
  set f' := Function.update f s (Heap.given o (f s)) with hf'
  have hfree : (f' s).free = (f s).free + 1 := by
    rw [hself]
    rfl
  have huse' : (f' s).inUse = (f s).inUse - 1 := by
    rw [hself]
    rfl
  have htotal : ∀ t ∈ c.slabs, (f' t).free + (f' t).inUse = c.objectsPerSlab :=
    hl.total_update hs (by rw [← hself, hfree, huse']; omega)
  have hsum : c.inUseSum f = c.inUseSum f' + 1 := by
    have hupdate : c.inUseSum f' + (f s).inUse = c.inUseSum f + (Heap.given o (f s)).inUse :=
      KmemCache.inUseSum_update hl.nodup hs _
    rw [← hself, huse'] at hupdate
    omega
  have hused : c.countDown.inUse = c.inUseSum f' % 2 ^ 32 := by
    apply KmemCache.countDown_inUse
    rw [← hsum]
    exact hl.used
  have hidle : ∀ t ∈ c.slabsFree, (f' t).inUse = 0 := by
    intro t ht
    rw [hother t fun hts => hnotFree (hts ▸ ht)]
    exact hl.idle t ht
  have hhalf : ∀ t ∈ c.slabsPartial, (f' t).free ≠ 0 ∧ ((f' t).inUse ≠ 0 ∨ t = s) := by
    intro t ht
    by_cases hts : t = s
    · rw [hts, hfree]
      exact ⟨Nat.succ_ne_zero _, .inr rfl⟩
    · rw [hother t hts]
      obtain ⟨hne, hcase⟩ := hl.half t ht
      exact ⟨hne, .inl (hcase.resolve_right id)⟩
  rw [Heap.relisted]
  split
  · rename_i hone
    have hperm : c.slabs.Perm (c.countDown.moveToPartial s).slabs :=
      KmemCache.slabs_moveToPartial (c := c.countDown) hl.nodup hs
    refine ⟨⟨hperm.nodup_iff.mp hl.nodup, fun t ht => ?_, fun t ht => ?_, fun t ht => hidle t (List.mem_filter.mp ht).1,
      fun t ht => htotal t (hperm.mem_iff.mpr ht), fun t ht => hl.objs t (hperm.mem_iff.mpr ht), hl.room, ?_, hl.freeMax,
      ?_⟩, List.mem_cons_self⟩
    · obtain ⟨ht, hts⟩ := List.mem_filter.mp ht
      rw [hother t (of_decide_eq_true hts)]
      exact hl.full t ht
    · rcases List.mem_cons.mp ht with rfl | ht
      · rw [hfree]
        exact ⟨Nat.succ_ne_zero _, .inr rfl⟩
      · exact hhalf t (List.mem_filter.mp ht).1
    · have hsame : (c.countDown.moveToPartial s).slabsFree = c.slabsFree := slabsFree_unlink hnotFree
      rw [hsame]
      exact hl.freeCount
    · rw [← KmemCache.inUseSum_perm hperm]
      exact hused
  · rename_i hmore
    have hnotFull : s ∉ c.slabsFull := fun hfull => hmore (by rw [hl.full s hfull])
    have hpart : s ∈ c.slabsPartial := by
      rcases c.mem_slabs.mp hs with h | h | h
      · exact absurd h hnotFull
      · exact h
      · exact absurd h hnotFree
    refine ⟨⟨hl.nodup, fun t ht => ?_, hhalf, hidle, htotal, hl.objs, hl.room, hl.freeCount, hl.freeMax, hused⟩, hpart⟩
    rw [hother t fun hts => hnotFull (hts ▸ ht)]
    exact hl.full t ht

/-- A slab with no object in use is put on `slabs_free`, while there is room for one more. -/
theorem toFree (hl : Ledger c f (· = s)) (hs : s ∈ c.slabsPartial) (huse : (f s).inUse = 0)
    (hfew : c.freeSlabCount < MAX_FREE_SLABS) :
    Ledger { c.moveToFree s with freeSlabCount := c.freeSlabCount + 1 } f Settled := by
  have hmem : s ∈ c.slabs := c.mem_slabs.mpr (.inr (.inl hs))
  have hperm := KmemCache.slabs_moveToFree hl.nodup hmem
  have hnotFree := (KmemCache.disjoint_of_nodup hl.nodup).2 s hs
  refine ⟨hperm.nodup_iff.mp hl.nodup, fun t ht => hl.full t (List.mem_filter.mp ht).1, fun t ht => ?_, fun t ht => ?_,
    fun t ht => hl.total t (hperm.mem_iff.mpr ht), fun t ht => hl.objs t (hperm.mem_iff.mpr ht), hl.room, ?_, hfew, ?_⟩
  · obtain ⟨ht, hts⟩ := List.mem_filter.mp ht
    obtain ⟨hne, hcase⟩ := hl.half t ht
    exact ⟨hne, .inl (hcase.resolve_right (of_decide_eq_true hts))⟩
  · rcases List.mem_cons.mp ht with rfl | ht
    · exact huse
    · exact hl.idle t (List.mem_filter.mp ht).1
  · show c.freeSlabCount + 1 = (c.unlink s).slabsFree.length + 1
    rw [slabsFree_unlink hnotFree, hl.freeCount]
  · show c.inUse = _
    rw [hl.used]
    exact congrArg (· % 2 ^ 32) (KmemCache.inUseSum_perm hperm)

/-- A slab with no object in use is taken off the lists. -/
theorem drop (hl : Ledger c f (· = s)) (hs : s ∈ c.slabsPartial) (huse : (f s).inUse = 0) :
    Ledger (c.unlink s) f Settled := by
  have hmem : s ∈ c.slabs := c.mem_slabs.mpr (.inr (.inl hs))
  have hnotFree := (KmemCache.disjoint_of_nodup hl.nodup).2 s hs
  have hsub : ∀ t ∈ (c.unlink s).slabs, t ∈ c.slabs := fun t ht => (KmemCache.mem_unlink.mp ht).1
  refine ⟨?_, fun t ht => hl.full t (List.mem_filter.mp ht).1, fun t ht => ?_,
    fun t ht => hl.idle t (List.mem_filter.mp ht).1, fun t ht => hl.total t (hsub t ht),
    fun t ht => hl.objs t (hsub t ht), hl.room, ?_, hl.freeMax, ?_⟩
  · rw [KmemCache.slabs_unlink]
    exact hl.nodup.filter _
  · obtain ⟨ht, hts⟩ := List.mem_filter.mp ht
    obtain ⟨hne, hcase⟩ := hl.half t ht
    exact ⟨hne, .inl (hcase.resolve_right (of_decide_eq_true hts))⟩
  · rw [slabsFree_unlink hnotFree]
    exact hl.freeCount
  · show c.inUse = _
    rw [hl.used, KmemCache.inUseSum_unlink hl.nodup hmem, huse, Nat.zero_add]

end Ledger

/-! ### The objects of a slab -/

namespace CacheShape

variable {c : CacheShape} {slab : ℕ}

/-- The object with this header lies behind the header of the slab and inside its block. -/
def Inside (c : CacheShape) (slab o : ℕ) : Prop :=
  slab + SIZEOF_SLAB ≤ o ∧ o + SIZEOF_SLAB_OBJ + c.objectSize ≤ slab + c.slabSize

instance (c : CacheShape) (slab o : ℕ) : Decidable (c.Inside slab o) := inferInstanceAs (Decidable (_ ∧ _))

/-- How many objects of the size asked for `slab_create` has carved inside the slab. -/
def carvedInside (c : CacheShape) (slab : ℕ) : ℕ := ((c.slots slab).filter fun o => decide (c.Inside slab o)).length

theorem Ok.carvedInside_eq (hc : c.Ok) (hslab : slab + c.slabSize ≤ 2 ^ 64) : c.carvedInside slab = c.objs slab := by
  have hall : ((c.slots slab).filter fun o => decide (c.Inside slab o)) = c.slots slab := by
    apply List.filter_eq_self.mpr
    intro o ho
    obtain ⟨hafter, hend⟩ := hc.inside hslab ho
    have hroom := hc.room
    exact decide_eq_true ⟨hafter, by omega⟩
  rw [carvedInside, hall, slots, strides, List.length_map, List.length_range]

/-- A slab on a page boundary has as many objects as `kmemcache_create` expects, unless it ends with the address
space. -/
theorem Ok.objs_eq (hc : c.Ok) (hpage : PAGE_SIZE ∣ slab) (hslab : slab + c.slabSize ≤ 2 ^ 64)
    (hobjs : c.objs slab ≠ 0) : c.objs slab = c.objectsPerSlab := by
  have hsize : PAGE_SIZE ≤ c.slabSize := Nat.le_mul_of_pos_right _ (Nat.two_pow_pos _)
  have hlt : slab + c.slabSize < 2 ^ 64 := by
    apply Nat.lt_of_le_of_ne hslab
    intro heq
    apply hobjs
    rw [objs, slabEnd, heq, Nat.mod_self, Nat.zero_sub, Nat.zero_div]
  obtain ⟨k, hk⟩ := hpage
  have hstart : c.objStart slab = slab + SIZEOF_SLAB := by
    rw [objStart, hc.align, alignUpTo_ptr]
    rw [PAGE_SIZE] at hk hsize
    rw [SIZEOF_SLAB, Nat.mod_eq_of_lt (by omega)]
    omega
  rw [objs, slabEnd, Nat.mod_eq_of_lt hlt, hstart, objectsPerSlab]
  congr 1
  omega

end CacheShape

theorem Buddy.alloc_hhdmOffset (b : Buddy) (order : ℕ) : (b.alloc order).2.hhdmOffset = b.hhdmOffset := by
  rw [Buddy.alloc]
  split
  · rfl
  · split
    · rfl
    · exact Buddy.splitDown_hhdmOffset _ _

/-- An outstanding block begins on a page boundary when the direct map does. -/
theorem Pages.page_dvd {bi : Boot} {b : Buddy} {out : List (ℕ × ℕ)} {a : ℕ × ℕ} (h : Pages bi b out) (ha : a ∈ out)
    (hpage : PAGE_SIZE ∣ b.hhdmOffset) : PAGE_SIZE ∣ a.1 := by
  rw [h.addr a ha]
  exact Nat.dvd_add (Nat.dvd_mul_left _ _) hpage

namespace Heap

variable {bi : Boot} {h h' : Heap} {cs owned : List ℕ} {held : List Obj} {others : List (ℕ × ℕ)} {ca s p : ℕ} {x : Obj}

/-- Every cache has its ledger in order. -/
def Ledgers (h : Heap) (cs : List ℕ) : Prop := ∀ ca ∈ cs, Ledger (h.caches ca) h.slabs Settled

/-- A call works on one slab of one cache. -/
theorem Ledgers.update (hl : h.Ledgers cs) (hnew : Ledger (h'.caches ca) h'.slabs Settled)
    (hcaches : ∀ ca', ca' ≠ ca → h'.caches ca' = h.caches ca') (hslabs : ∀ t, t ≠ s → h'.slabs t = h.slabs t)
    (hhome : ∀ ca' ∈ cs, s ∈ (h.caches ca').slabs → ca' = ca) : h'.Ledgers cs := by
  intro ca' hca'
  by_cases hne : ca' = ca
  · rw [hne]
    exact hnew
  · rw [hcaches ca' hne]
    have hkept : ∀ t ∈ (h.caches ca').slabs, h'.slabs t = h.slabs t :=
      fun t ht => hslabs t fun hts => hne (hhome ca' hca' (hts ▸ ht))
    exact (hl ca' hca').congr (fun t ht => by rw [hkept t ht]) (fun t ht => by rw [hkept t ht])

/-- A slab is on the lists of its own cache only. -/
theorem Inv.home_eq (hi : Inv bi h cs owned held others) (hcache : (h.slabs s).cache = ca) :
    ∀ ca' ∈ cs, s ∈ (h.caches ca').slabs → ca' = ca :=
  fun ca' hca' hs => (hi.home ca' hca' s hs).symm.trans hcache

/-- The end of `kmemcache_alloc`, from the state in which a slab was chosen. -/
theorem Ledgers.takeObject {h₁ : Heap} (hl : h.Ledgers cs) (hchosen : Ledger (h₁.caches ca) h₁.slabs (· = s))
    (hs : s ∈ (h₁.caches ca).slabsPartial) (hcaches : ∀ ca', ca' ≠ ca → h₁.caches ca' = h.caches ca')
    (hslabs : ∀ t, t ≠ s → h₁.slabs t = h.slabs t) (hhome : ∀ ca' ∈ cs, s ∈ (h.caches ca').slabs → ca' = ca)
    (hr : h₁.takeObject ca s = some (p, h')) :
    h'.Ledgers cs ∧ h'.buddy = h₁.buddy := by
  cases hfl : (h₁.slabs s).freelist with
  | nil =>
    rw [Heap.takeObject, hfl] at hr
    cases hr
  | cons o rest =>
    rw [takeObject_eq hfl] at hr
    obtain ⟨-, rfl⟩ := Prod.mk.inj (Option.some.inj hr)
    refine ⟨hl.update ?_ (fun ca' hne => ?_) (fun t ht => ?_) hhome, rfl⟩
    · rw [setCache_self]
      exact hchosen.take hs
    · rw [setCache_of_ne _ hne]
      exact hcaches ca' hne
    · show (h₁.setSlab s taken).slabs t = _
      rw [setSlab_of_ne taken ht]
      exact hslabs t ht

theorem Ledgers.kmemcacheAlloc (hl : h.Ledgers cs) (hi : Inv bi h cs owned held others)
    (hpage : PAGE_SIZE ∣ h.buddy.hhdmOffset) (hca : ca ∈ cs) (hr : h.kmemcacheAlloc ca = some (p, h')) :
    h'.Ledgers cs ∧ h'.buddy.hhdmOffset = h.buddy.hhdmOffset := by
  rw [Heap.kmemcacheAlloc, if_neg (hi.cache_ne_zero hca)] at hr
  cases hhalf : (h.caches ca).slabsPartial with
  | cons s rest =>
    rw [hhalf] at hr
    have hs : s ∈ (h.caches ca).slabsPartial := by
      rw [hhalf]
      exact List.mem_cons_self
    have hcache := hi.home ca hca s (KmemCache.mem_slabs.mpr (.inr (.inl hs)))
    obtain ⟨hl', hbuddy⟩ := hl.takeObject (hl ca hca).loosen hs (fun _ _ => rfl) (fun _ _ => rfl) (hi.home_eq hcache) hr
    exact ⟨hl', by rw [hbuddy]⟩
  | nil =>
    rw [hhalf] at hr
    cases hfree : (h.caches ca).slabsFree with
    | cons s rest =>
      rw [hfree] at hr
      have hs : s ∈ (h.caches ca).slabsFree := by
        rw [hfree]
        exact List.mem_cons_self
      have hcache := hi.home ca hca s (KmemCache.mem_slabs.mpr (.inr (.inr hs)))
      have hchosen := (hl ca hca).toPartial hs
      obtain ⟨hl', hbuddy⟩ := hl.takeObject (by rw [setCache_self]; exact hchosen)
        (by rw [setCache_self]; exact List.mem_cons_self) (fun ca' hne => setCache_of_ne _ hne) (fun _ _ => rfl)
        (hi.home_eq hcache) hr
      exact ⟨hl', by rw [hbuddy]; rfl⟩
    | nil =>
      rw [hfree] at hr
      simp only [] at hr
      cases hcreate : h.slabCreate ca with
      | none =>
        rw [hcreate] at hr
        cases hr
      | some created =>
        obtain ⟨s, h₁⟩ := created
        rw [hcreate] at hr
        simp only [] at hr
        rcases hi.slabCreate_cases hcreate with ⟨hzero, -, hsame⟩ | ⟨hs0, hobjs, hwith, hpages⟩
        · rw [if_pos hzero] at hr
          obtain ⟨-, rfl⟩ := Prod.mk.inj (Option.some.inj hr)
          rw [hsame]
          exact ⟨hl, rfl⟩
        · rw [if_neg hs0, hwith] at hr
          have hoff : (h.buddy.alloc (h.caches ca).order).2.hhdmOffset = h.buddy.hhdmOffset := Buddy.alloc_hhdmOffset ..
          have hfresh := not_mem_owned_of_pages hpages
          have hnot : ∀ ca' ∈ cs, s ∉ (h.caches ca').slabs :=
            fun ca' hca' hs => hfresh ((hi.listed s).mpr ⟨ca', hca', hs⟩)
          set h₂ := h.withSlab ca s (h.buddy.alloc (h.caches ca).order).2 with hh₂
          have hself : h₂.slabs s = ⟨SLAB_MAGIC, ca, 0, (h.caches ca).toCacheShape.objs s,
              (h.caches ca).toCacheShape.slots s⟩ := Function.update_self ..
          have hother : ∀ t, t ≠ s → h₂.slabs t = h.slabs t := fun t ht => Function.update_of_ne ht ..
          have hcount : (h.caches ca).toCacheShape.objs s = (h.caches ca).objectsPerSlab := by
            refine (hi.shapes ca hca).objs_eq ?_ (hpages.inside List.mem_cons_self) hobjs
            exact hpages.page_dvd List.mem_cons_self (by rw [hoff]; exact hpage)
          have hchosen : Ledger { h.caches ca with slabsPartial := s :: (h.caches ca).slabsPartial } h₂.slabs (· = s) :=
            (hl ca hca).add (hnot ca hca) (by rw [hself]; exact hcount) (by rw [hself]) hcount
              fun t ht => hother t fun hts => hnot ca hca (hts ▸ ht)
          have hcaches : ∀ ca', ca' ≠ ca → (h₂.setCache ca fun c =>
              { c with slabsPartial := s :: c.slabsPartial }).caches ca' = h.caches ca' :=
            fun ca' hne => setCache_of_ne _ hne
          obtain ⟨hl', hbuddy⟩ := hl.takeObject (by rw [setCache_self]; exact hchosen)
            (by rw [setCache_self]; exact List.mem_cons_self) hcaches hother
            (fun ca' hca' hs => absurd hs (hnot ca' hca')) hr
          refine ⟨hl', ?_⟩
          rw [hbuddy]
          exact hoff

theorem Ledgers.kmemcacheFree (hl : h.Ledgers cs) (hi : Inv bi h cs owned (x :: held) others)
    (hr : h.kmemcacheFree x.ptr = some h') :
    h'.Ledgers cs ∧ h'.buddy.hhdmOffset = h.buddy.hhdmOffset := by
  have hs := hi.slabOf x List.mem_cons_self
  have hp := hi.placed x List.mem_cons_self
  have hcarved := hi.carved x.slab hs
  obtain ⟨hca, hsl⟩ := hi.cache_mem hs
  have hhome := hi.home_eq (Eq.refl (h.slabs x.slab).cache)
  rw [kmemcacheFree_eq (p := x.ptr) (o := x.head) rfl (hcarved.owner x.head hp.slot) rfl hcarved.magic] at hr
  set ca := (h.slabs x.slab).cache with hcaDef
  have hone : (h.slabs x.slab).inUse ≠ 0 := by
    rw [hcarved.inUse, heldIn_cons_self]
    exact Nat.succ_ne_zero _
  obtain ⟨hgive, hpart⟩ := (hl ca hca).give hsl hone x.head
  set h₁ := (h.setSlab x.slab (given x.head)).setCache ca (relisted x.slab (h.slabs x.slab).free) with hh₁
  have hcaSelf : h₁.caches ca = relisted x.slab (h.slabs x.slab).free (h.caches ca) := setCache_self ..
  have hcaOther : ∀ ca', ca' ≠ ca → h₁.caches ca' = h.caches ca' := fun ca' hne => setCache_of_ne _ hne
  have hslab : ∀ t, t ≠ x.slab → h₁.slabs t = h.slabs t := fun t ht => setSlab_of_ne _ ht
  have hslabs : h₁.slabs = Function.update h.slabs x.slab (given x.head (h.slabs x.slab)) := rfl
  have huse : (h₁.slabs x.slab).inUse = (h.slabs x.slab).inUse - 1 := by
    rw [hslabs, Function.update_self]
    rfl
  rw [← hcaSelf, ← hslabs] at hgive
  rw [← hcaSelf] at hpart
  split at hr
  · rename_i hempty
    have hzero : (h₁.slabs x.slab).inUse = 0 := huse.trans hempty
    split at hr
    · have hmagic : (h₁.slabs x.slab).magic = SLAB_MAGIC := by
        rw [hslabs, Function.update_self]
        exact hcarved.magic
      rw [slabDestroy_eq hmagic] at hr
      obtain rfl := Option.some.inj hr
      have hunlinked : (h₁.withoutSlab ca x.slab).caches ca = (h₁.caches ca).unlink x.slab := Function.update_self ..
      have hlater : ∀ t, t ≠ x.slab → (h₁.withoutSlab ca x.slab).slabs t = h₁.slabs t :=
        fun t ht => Function.update_of_ne ht ..
      refine ⟨hl.update ?_ (fun ca' hne => ?_) (fun t ht => ?_) hhome,
        Buddy.free_hhdmOffset ..⟩
      · rw [hunlinked]
        have hkept : ∀ t ∈ ((h₁.caches ca).unlink x.slab).slabs, (h₁.withoutSlab ca x.slab).slabs t = h₁.slabs t :=
          fun t ht => hlater t (KmemCache.mem_unlink.mp ht).2
        exact (hgive.drop hpart hzero).congr (fun t ht => by rw [hkept t ht]) (fun t ht => by rw [hkept t ht])
      · rw [← hcaOther ca' hne]
        exact Function.update_of_ne hne ..
      · rw [← hslab t ht]
        exact hlater t ht
    · rename_i hfew
      obtain rfl := Option.some.inj hr
      refine ⟨hl.update ?_ (fun ca' hne => ?_) hslab hhome, rfl⟩
      · rw [setCache_self]
        exact hgive.toFree hpart hzero (Nat.lt_of_not_le hfew)
      · rw [setCache_of_ne _ hne]
        exact hcaOther ca' hne
  · rename_i hmore
    obtain rfl := Option.some.inj hr
    refine ⟨hl.update ?_ hcaOther hslab hhome, rfl⟩
    exact hgive.settle (by rw [huse]; exact hmore)

/-! ### What the books say -/

/-- The slab `kmemcache_alloc` takes an object from has a free one, whichever of the three ways it is found. -/
structure PopsObject (h : Heap) (ca : ℕ) : Prop where
  fromPartial : ∀ s rest, (h.caches ca).slabsPartial = s :: rest → (h.slabs s).freelist ≠ []
  fromFree : ∀ s rest, (h.caches ca).slabsFree = s :: rest → (h.slabs s).freelist ≠ []
  fromNew : ∀ s h', h.slabCreate ca = some (s, h') → s ≠ 0 → (h'.slabs s).freelist ≠ []

/-- The books of a cache, but for the number of objects in use. -/
structure BooksOfSlabs (h : Heap) (ca : ℕ) : Prop where
  /-- A slab is on one list, once. -/
  oneList : (h.caches ca).slabs.Nodup
  full : ∀ s ∈ (h.caches ca).slabs, s ∈ (h.caches ca).slabsFull ↔ (h.slabs s).free = 0
  idle : ∀ s ∈ (h.caches ca).slabs, s ∈ (h.caches ca).slabsFree ↔ (h.slabs s).inUse = 0
  half : ∀ s ∈ (h.caches ca).slabs, s ∈ (h.caches ca).slabsPartial ↔ (h.slabs s).free ≠ 0 ∧ (h.slabs s).inUse ≠ 0
  total : ∀ s ∈ (h.caches ca).slabs, (h.slabs s).free + (h.slabs s).inUse = (h.caches ca).objectsPerSlab
  carved : ∀ s ∈ (h.caches ca).slabs, (h.slabs s).free + (h.slabs s).inUse = (h.caches ca).carvedInside s
  freelist : ∀ s ∈ (h.caches ca).slabs, (h.slabs s).freelist.length = (h.slabs s).free
  freeSlabs : (h.caches ca).freeSlabCount = (h.caches ca).slabsFree.length
  freeMax : (h.caches ca).freeSlabCount ≤ MAX_FREE_SLABS
  pops : h.PopsObject ca

/-- The books of a cache. -/
structure Books (h : Heap) (ca : ℕ) : Prop extends BooksOfSlabs h ca where
  inUse : (h.caches ca).inUse = (h.caches ca).inUseSum h.slabs

theorem Inv.popsObject (hi : Inv bi h cs owned held others) (hca : ca ∈ cs) : h.PopsObject ca := by
  have hready : ∀ s, s ∈ (h.caches ca).slabsPartial ∨ s ∈ (h.caches ca).slabsFree → (h.slabs s).freelist ≠ [] := by
    intro s hs hnil
    have hpos := hi.ready ca hca s hs
    have howned := (hi.listed s).mpr ⟨ca, hca, KmemCache.mem_slabs.mpr (.inr hs)⟩
    rw [(hi.carved s howned).free, hnil] at hpos
    exact Nat.lt_irrefl 0 hpos
  refine ⟨fun s rest heq => hready s (.inl ?_), fun s rest heq => hready s (.inr ?_), fun s h' hcreate hs hnil => ?_⟩
  · rw [heq]
    exact List.mem_cons_self
  · rw [heq]
    exact List.mem_cons_self
  · rcases hi.slabCreate_cases hcreate with ⟨hzero, -⟩ | ⟨-, hobjs, hwith, -⟩
    · exact hs hzero
    · have hself : h'.slabs s = ⟨SLAB_MAGIC, ca, 0, (h.caches ca).toCacheShape.objs s,
          (h.caches ca).toCacheShape.slots s⟩ := by
        rw [hwith]
        exact Function.update_self ..
      rw [hself, CacheShape.slots, strides, List.map_eq_nil_iff, List.range_eq_nil] at hnil
      exact hobjs hnil

/-- The ledger of a cache is what its books say, up to a wrap of the number of objects in use. -/
theorem Ledgers.booksOfSlabs (hl : h.Ledgers cs) (hi : Inv bi h cs owned held others) (hca : ca ∈ cs) :
    h.BooksOfSlabs ca := by
  have hled := hl ca hca
  have hroom := hled.room
  have howned : ∀ s ∈ (h.caches ca).slabs, s ∈ owned := fun s hs => (hi.listed s).mpr ⟨ca, hca, hs⟩
  have hpart : ∀ s ∈ (h.caches ca).slabsPartial, (h.slabs s).free ≠ 0 ∧ (h.slabs s).inUse ≠ 0 :=
    fun s hs => ⟨(hled.half s hs).1, (hled.half s hs).2.resolve_right id⟩
  have hboth : ∀ s ∈ (h.caches ca).slabs, ¬((h.slabs s).free = 0 ∧ (h.slabs s).inUse = 0) := by
    intro s hs ⟨hfree, huse⟩
    have htotal := hled.total s hs
    omega
  -- the list a slab is on gives its counters; the counters exclude the two other lists
  refine ⟨hled.nodup, fun s hs => ⟨hled.full s, fun hfree => ?_⟩, fun s hs => ⟨hled.idle s, fun huse => ?_⟩,
    fun s hs => ⟨hpart s, fun ⟨hfree, huse⟩ => ?_⟩, hled.total, fun s hs => ?_,
    fun s hs => ((hi.carved s (howned s hs)).free).symm, hled.freeCount, hled.freeMax, hi.popsObject hca⟩
  · rcases KmemCache.mem_slabs.mp hs with h1 | h1 | h1
    · exact h1
    · exact absurd hfree (hpart s h1).1
    · exact absurd ⟨hfree, hled.idle s h1⟩ (hboth s hs)
  · rcases KmemCache.mem_slabs.mp hs with h1 | h1 | h1
    · exact absurd ⟨hled.full s h1, huse⟩ (hboth s hs)
    · exact absurd huse (hpart s h1).2
    · exact h1
  · rcases KmemCache.mem_slabs.mp hs with h1 | h1 | h1
    · exact absurd (hled.full s h1) hfree
    · exact h1
    · exact absurd (hled.idle s h1) huse
  · have hshape : h.shapeOf s = (h.caches ca).toCacheShape := by
      rw [shapeOf, hi.home ca hca s hs]
    have hinside := hi.slab_inside (howned s hs)
    rw [hshape] at hinside
    rw [(hi.shapes ca hca).carvedInside_eq hinside, hled.objs s hs]
    exact hled.total s hs

/-- The objects of a cache that somebody holds. -/
def heldOf (h : Heap) (held : List Obj) (ca : ℕ) : List Obj :=
  held.filter fun x => decide ((h.slabs x.slab).cache = ca)

theorem heldIn_add_length {t : ℕ} {l : List ℕ} (held : List Obj) (ht : t ∉ l) :
    heldIn held t + (held.filter fun x => decide (x.slab ∈ l)).length =
      (held.filter fun x => decide (x.slab ∈ t :: l)).length := by
  rw [heldIn]
  induction held with
  | nil => rfl
  | cons x held ih =>
    by_cases hxt : x.slab = t
    · rw [List.filter_cons_of_pos (by simp [hxt]), List.filter_cons_of_neg (by simp [hxt, ht]),
        List.filter_cons_of_pos (by simp [hxt]), List.length_cons, List.length_cons, ← ih]
      omega
    · by_cases hxl : x.slab ∈ l
      · rw [List.filter_cons_of_neg (by simp [hxt]), List.filter_cons_of_pos (by simp [hxl]),
          List.filter_cons_of_pos (by simp [hxl]), List.length_cons, List.length_cons, ← ih]
        omega
      · rw [List.filter_cons_of_neg (by simp [hxt]), List.filter_cons_of_neg (by simp [hxl]),
          List.filter_cons_of_neg (by simp [hxt, hxl]), ← ih]

theorem sum_heldIn (held : List Obj) {l : List ℕ} (hn : l.Nodup) :
    (l.map (heldIn held)).sum = (held.filter fun x => decide (x.slab ∈ l)).length := by
  induction l with
  | nil =>
    rw [List.filter_eq_nil_iff.mpr fun x _ => by simp]
    rfl
  | cons t l ih =>
    obtain ⟨ht, hn⟩ := List.nodup_cons.mp hn
    rw [List.map_cons, List.sum_cons, ih hn, heldIn_add_length held ht]

/-- The objects in use in the slabs of a cache are the held ones. -/
theorem Inv.inUseSum_eq (hi : Inv bi h cs owned held others) (hca : ca ∈ cs) (hn : (h.caches ca).slabs.Nodup) :
    (h.caches ca).inUseSum h.slabs = (h.heldOf held ca).length := by
  have huse : ∀ s ∈ (h.caches ca).slabs, (h.slabs s).inUse = heldIn held s :=
    fun s hs => (hi.carved s ((hi.listed s).mpr ⟨ca, hca, hs⟩)).inUse
  rw [KmemCache.inUseSum, List.map_congr_left huse, sum_heldIn held hn, heldOf]
  apply congrArg
  apply List.filter_congr
  intro x hx
  rw [decide_eq_decide]
  constructor
  · exact hi.home ca hca x.slab
  · intro hcache
    rw [← hcache]
    exact (hi.cache_mem (hi.slabOf x hx)).2

/-- **The books of a cache are right** exactly as long as `in_use` can hold the number of its objects in use. -/
theorem Ledgers.books_iff (hl : h.Ledgers cs) (hi : Inv bi h cs owned held others) (hca : ca ∈ cs) :
    h.Books ca ↔ (h.heldOf held ca).length < 2 ^ 32 := by
  have hsum := hi.inUseSum_eq hca (hl ca hca).nodup
  have hused := (hl ca hca).used
  rw [hsum] at hused
  constructor
  · intro hb
    have huse := hb.inUse
    rw [hsum, hused] at huse
    rw [← huse]
    exact Nat.mod_lt _ (Nat.two_pow_pos 32)
  · intro hlt
    refine ⟨hl.booksOfSlabs hi hca, ?_⟩
    rw [hused, hsum, Nat.mod_eq_of_lt hlt]

/-- A cache that was just created has no slab. -/
theorem Ledgers.withCache {size mem : ℕ} {buddy : Buddy} (hl : h.Ledgers cs) (hfresh : mem ∉ cs)
    (hroom : (shapeFor size).objectsPerSlab ≠ 0) : (h.withCache mem size buddy).Ledgers (mem :: cs) := by
  intro ca hca
  rcases List.mem_cons.mp hca with rfl | hca
  · rw [withCache_self]
    exact ⟨List.nodup_nil, by simp, by simp, by simp, by simp [KmemCache.slabs], by simp [KmemCache.slabs],
      Nat.pos_of_ne_zero hroom, rfl, Nat.zero_le _, rfl⟩
  · rw [withCache_of_ne fun hcm : ca = mem => hfresh (hcm ▸ hca)]
    exact hl ca hca

/-- A size whose sum with the object header wraps to zero is rejected. -/
theorem objectsPerSlab_of_wrapped {size : ℕ} (hle : SIZEOF_SLAB_OBJ + size ≤ 2 ^ 64)
    (hlt : 2 ^ 64 < SIZEOF_SLAB_OBJ + size + SIZEOF_PTR) : (shapeFor size).objectsPerSlab = 0 := by
  have hreal : (shapeFor size).realObjectSize = 0 := by
    show alignUpTo (SIZEOF_SLAB_OBJ + size) SIZEOF_PTR = 0
    rw [alignUpTo_ptr]
    rw [SIZEOF_SLAB_OBJ] at hle hlt ⊢
    rw [SIZEOF_PTR] at hlt
    omega
  rw [CacheShape.objectsPerSlab, hreal, Nat.div_zero]

/-- What `kmemcache_create` answers for a size that does not wrap past the object header. -/
theorem Inv.kmemcacheCreate_ledgers {size mem : ℕ} (hi : Inv bi h cs owned held others) (hl : h.Ledgers cs)
    (hsize : SIZEOF_SLAB_OBJ + size ≤ 2 ^ 64) (hr : h.kmemcacheCreate size = some (mem, h')) :
    (mem = 0 ∧ h' = h) ∨
    (mem ≠ 0 ∧ Inv bi h' (mem :: cs) owned held others ∧ h'.Ledgers (mem :: cs) ∧
      h'.buddy.hhdmOffset = h.buddy.hhdmOffset) := by
  by_cases hzero : (h.buddy.alloc 0).1 = 0
  · have hsame : (h.buddy.alloc 0).2 = h.buddy := by
      rcases hi.pages.alloc 0 with ⟨-, hsame⟩ | ⟨hne, -⟩
      · exact hsame
      · exact absurd hzero hne
    rw [Heap.kmemcacheCreate] at hr
    simp only [] at hr
    rw [if_pos hzero, hsame] at hr
    obtain ⟨rfl, rfl⟩ := Prod.mk.inj (Option.some.inj hr)
    exact .inl ⟨rfl, rfl⟩
  · have hroom : (shapeFor size).objectsPerSlab ≠ 0 := by
      intro hnone
      rw [Heap.kmemcacheCreate] at hr
      simp only [] at hr
      rw [if_neg hzero, if_pos hnone] at hr
      cases hr
    have hfits : SIZEOF_SLAB_OBJ + size + SIZEOF_PTR ≤ 2 ^ 64 := by
      by_contra hlt
      exact hroom (objectsPerSlab_of_wrapped hsize (Nat.lt_of_not_le hlt))
    rcases hi.kmemcacheCreate hfits hr with hfail | ⟨hmem, hfresh, rfl, hi'⟩
    · exact .inl hfail
    · exact .inr ⟨hmem, hi', hl.withCache hfresh hroom, Buddy.alloc_hhdmOffset ..⟩

end Heap

/-! ### Runs of the caches -/

/-- Caches, the objects of them that are live, and the blocks that other users of the page allocator have. -/
structure SlabRun where
  heap : Heap
  caches : List ℕ
  live : List Obj
  others : List (ℕ × ℕ)

inductive SlabCall where
  | create (size : ℕ)
  | alloc (cache : ℕ)
  | free (ptr : ℕ)
  | buddyAlloc (order : ℕ)
  | buddyFree (vaddr order : ℕ)

/-- The size of an object and of its header together is a 64-bit number, or wraps to zero. -/
def SlabCall.Unwrapped : SlabCall → Prop
  | .create size => SIZEOF_SLAB_OBJ + size ≤ 2 ^ 64
  | _ => True

instance : DecidablePred SlabCall.Unwrapped
  | .create size => inferInstanceAs (Decidable (SIZEOF_SLAB_OBJ + size ≤ 2 ^ 64))
  | .alloc _ => isTrue trivial
  | .free _ => isTrue trivial
  | .buddyAlloc _ => isTrue trivial
  | .buddyFree _ _ => isTrue trivial

namespace SlabRun

/-- A call.  Only caches that were created are used, only live objects and outstanding blocks are freed, and nothing
follows when the kernel has stopped. -/
def exec (s : SlabRun) : SlabCall → Option SlabRun
  | .create size =>
      match s.heap.kmemcacheCreate size with
      | none => none
      | some (mem, h) => some { s with heap := h, caches := if mem = 0 then s.caches else mem :: s.caches }
  | .alloc cache =>
      if cache ∉ s.caches then none
      else
        match s.heap.kmemcacheAlloc cache with
        | none => none
        | some (p, h) =>
            some { s with
              heap := h
              live := if p = 0 then s.live
                else ⟨p, (s.heap.caches cache).objectSize, h.objSlab (p - SIZEOF_SLAB_OBJ)⟩ :: s.live }
  | .free ptr =>
      match s.live.find? fun x => decide (x.ptr = ptr) with
      | none => none
      | some x =>
          match s.heap.kmemcacheFree ptr with
          | none => none
          | some h => some { s with heap := h, live := s.live.erase x }
  | .buddyAlloc order =>
      some { s with
        heap := { s.heap with buddy := (s.heap.buddy.alloc order).2 }
        others := if (s.heap.buddy.alloc order).1 = 0 then s.others
          else ((s.heap.buddy.alloc order).1, order) :: s.others }
  | .buddyFree vaddr order =>
      if (vaddr, order) ∈ s.others then
        some { s with
          heap := { s.heap with buddy := s.heap.buddy.free vaddr order }
          others := s.others.erase (vaddr, order) }
      else none

def Step (s : SlabRun) (c : SlabCall) (s' : SlabRun) : Prop := s.exec c = some s'

/-- The state after `buddy_init`, with any contents of memory. -/
def boot (bi : Boot) (m : HeapRun.Memory) : SlabRun := ⟨(HeapRun.boot bi m).heap, [], [], []⟩

/-- What every run keeps. -/
structure Inv (bi : Boot) (s : SlabRun) : Prop where
  heap : ∃ owned, Heap.Inv bi s.heap s.caches owned s.live s.others
  ledgers : s.heap.Ledgers s.caches
  page : PAGE_SIZE ∣ s.heap.buddy.hhdmOffset

variable {bi : Boot} {s s' : SlabRun}

theorem boot_inv (bi : Boot) (m : HeapRun.Memory) (hpage : PAGE_SIZE ∣ bi.hhdmBase) : (boot bi m).Inv bi := by
  refine ⟨⟨[], HeapRun.boot_heap bi m⟩, fun ca hca => absurd hca List.not_mem_nil, ?_⟩
  obtain ⟨j, -, hg⟩ := buddyInit_grouped bi.toBootInfo
  show PAGE_SIZE ∣ (buddyInit bi.toBootInfo).hhdmOffset
  rw [hg.hhdmOffset]
  exact hpage

theorem Inv.step {c : SlabCall} (hi : s.Inv bi) (hsize : c.Unwrapped) (hstep : s.Step c s') : s'.Inv bi := by
  obtain ⟨⟨owned, hheap⟩, hl, hpage⟩ := hi
  rw [Step] at hstep
  cases c with
  | create size =>
    simp only [exec] at hstep
    split at hstep
    · cases hstep
    · rename_i mem h hr
      obtain rfl := Option.some.inj hstep
      rcases hheap.kmemcacheCreate_ledgers hl hsize hr with ⟨rfl, rfl⟩ | ⟨hmem, hheap', hl', hoff⟩
      · exact ⟨⟨owned, hheap⟩, hl, hpage⟩
      · rw [if_neg hmem]
        exact ⟨⟨owned, hheap'⟩, hl', by rw [hoff]; exact hpage⟩
  | alloc ca =>
    simp only [exec] at hstep
    split at hstep
    · cases hstep
    · rename_i hca
      have hca : ca ∈ s.caches := not_not.mp hca
      split at hstep
      · cases hstep
      · rename_i p h hr
        obtain rfl := Option.some.inj hstep
        obtain ⟨hl', hoff⟩ := hl.kmemcacheAlloc hheap hpage hca hr
        obtain ⟨-, ⟨hzero, -, hheap'⟩ | ⟨hne, owned', hheap'⟩⟩ := hheap.kmemcacheAlloc hca (Nat.le_refl _) hr
        · rw [if_pos hzero]
          exact ⟨⟨owned, hheap'⟩, hl', by rw [hoff]; exact hpage⟩
        · rw [if_neg hne]
          exact ⟨⟨owned', hheap'⟩, hl', by rw [hoff]; exact hpage⟩
  | free ptr =>
    simp only [exec] at hstep
    split at hstep
    · cases hstep
    · rename_i x hfind
      have hx : x ∈ s.live := List.mem_of_find?_eq_some hfind
      have hptr : x.ptr = ptr := by simpa using List.find?_some hfind
      have hheap₁ := hheap.perm (List.perm_cons_erase hx)
      obtain ⟨h', owned', hfree, -, hheap', -⟩ := hheap₁.kmemcacheFree
      rw [← hptr, hfree] at hstep
      obtain rfl := Option.some.inj hstep
      obtain ⟨hl', hoff⟩ := hl.kmemcacheFree hheap₁ hfree
      exact ⟨⟨owned', hheap'⟩, hl', by rw [hoff]; exact hpage⟩
  | buddyAlloc order =>
    obtain rfl := Option.some.inj hstep
    refine ⟨⟨owned, hheap.buddyAlloc order⟩, hl, ?_⟩
    rw [Buddy.alloc_hhdmOffset]
    exact hpage
  | buddyFree vaddr order =>
    simp only [exec] at hstep
    split at hstep
    · rename_i hmem
      obtain rfl := Option.some.inj hstep
      refine ⟨⟨owned, hheap.buddyFree hmem⟩, hl, ?_⟩
      rw [Buddy.free_hhdmOffset]
      exact hpage
    · cases hstep

/-- No slab is lost, and none is shared. -/
structure Tracked (bi : Boot) (s : SlabRun) : Prop where
  /-- A slab is on the lists of one cache. -/
  home : ∀ ca ∈ s.caches, ∀ ca' ∈ s.caches, ∀ t ∈ (s.heap.caches ca).slabs, t ∈ (s.heap.caches ca').slabs → ca = ca'
  /-- A page that `buddy_alloc` has handed out is that of a cache, or of a slab on a list, or another user has it. -/
  pages : ∀ p, bi.FreeAtBoot p → (s.heap.buddy.pages p).flags = .allocated →
    (∃ ca ∈ s.caches, (s.heap.buddy.blockOf (ca, 0)).Has p) ∨
    (∃ ca ∈ s.caches, ∃ t ∈ (s.heap.caches ca).slabs, (s.heap.buddy.blockOf (s.heap.slabBlock t)).Has p) ∨
    ∃ a ∈ s.others, (s.heap.buddy.blockOf a).Has p

theorem Inv.tracked (hi : s.Inv bi) : s.Tracked bi := by
  obtain ⟨⟨owned, hheap⟩, -, -⟩ := hi
  refine ⟨fun ca hca ca' hca' t ht ht' => ?_, fun p hp hflags => ?_⟩
  · exact (hheap.home ca hca t ht).symm.trans (hheap.home ca' hca' t ht')
  · have hblocks := hheap.pages.run.blocks
    obtain ⟨blk, hblk, hhas⟩ := (hblocks.tiles.cover p).mp hp
    rcases List.mem_append.mp hblk with hfree | hout
    · have hflags' := hblocks.freeFlags blk hfree p hhas
      rw [hflags] at hflags'
      cases hflags'
    · obtain ⟨a, ha, rfl⟩ := List.mem_map.mp hout
      rcases List.mem_append.mp ha with ha | ha
      · rcases List.mem_append.mp ha with ha | ha
        · obtain ⟨ca, hca, rfl⟩ := List.mem_map.mp ha
          exact .inl ⟨ca, hca, hhas⟩
        · obtain ⟨t, ht, rfl⟩ := List.mem_map.mp ha
          obtain ⟨ca, hca, hsl⟩ := (hheap.listed t).mp ht
          exact .inr (.inl ⟨ca, hca, t, hsl, hhas⟩)
      · exact .inr (.inr ⟨a, ha, hhas⟩)

/-- **The books of the slab caches.**  In every run in which no size wraps, no slab is lost, and the books of a cache
are right exactly as long as fewer than 2^32 of its objects are in use. -/
theorem books_of_run (bi : Boot) (m : HeapRun.Memory) (hpage : PAGE_SIZE ∣ bi.hhdmBase) {l : List (SlabRun × SlabCall)}
    (hrun : Trace Step (boot bi m) l s) (hsizes : ∀ x ∈ l, x.2.Unwrapped) :
    s.Tracked bi ∧
      ∀ ca ∈ s.caches, s.heap.BooksOfSlabs ca ∧
        (s.heap.Books ca ↔ (s.heap.heldOf s.live ca).length < 2 ^ 32) := by
  have hinv : s.Inv bi := by
    apply hrun.invariant
    · exact boot_inv bi m hpage
    · exact fun x hx s₂ hi hstep => hi.step (hsizes x hx) hstep
  refine ⟨hinv.tracked, fun ca hca => ?_⟩
  obtain ⟨owned, hheap⟩ := hinv.heap
  exact ⟨hinv.ledgers.booksOfSlabs hheap hca, hinv.ledgers.books_iff hheap hca⟩

/-- The state after `buddy_init` on four pages, with the free list written out. -/
def fourPagesBoot : SlabRun := ⟨HeapRun.fourPagesBoot.heap, [], [], []⟩

theorem boot_fourPages : boot HeapRun.fourPages HeapRun.zeroMemory = fourPagesBoot := rfl

/-- Two slabs of one object each, of which the first is free again. -/
def oneObjectCalls : List SlabCall :=
  [.create 4000, .alloc 0xFFFF800000010000, .alloc 0xFFFF800000010000, .free 0xFFFF800000007048]

def oneObjectRun : SlabRun := runLast exec fourPagesBoot oneObjectCalls

/-- One slab is full and the other free after that, and the books of the cache are right. -/
theorem books_of_run_oneObject :
    (oneObjectRun.heap.caches 0xFFFF800000010000).slabsFull = [0xFFFF800000004000] ∧
    (oneObjectRun.heap.caches 0xFFFF800000010000).slabsFree = [0xFFFF800000007000] ∧
    oneObjectRun.heap.Books 0xFFFF800000010000 := by
  have hsteps : (runSteps exec fourPagesBoot oneObjectCalls).isSome = true := by decide
  have hrun : Trace Step (boot HeapRun.fourPages HeapRun.zeroMemory) (runPassed exec fourPagesBoot oneObjectCalls)
      oneObjectRun := by
    rw [boot_fourPages]
    exact trace_runLast hsteps
  have hsizes : ∀ x ∈ runPassed exec fourPagesBoot oneObjectCalls, x.2.Unwrapped := by decide
  obtain ⟨-, hbooks⟩ := books_of_run HeapRun.fourPages HeapRun.zeroMemory (by decide) hrun hsizes
  have hcache : 0xFFFF800000010000 ∈ oneObjectRun.caches := by decide
  have hlive : (oneObjectRun.heap.heldOf oneObjectRun.live 0xFFFF800000010000).length < 2 ^ 32 := by decide
  exact ⟨by decide, by decide, (hbooks _ hcache).2.mpr hlive⟩

/-- With this size the header and the object together are 8 bytes long, modulo 2^64. -/
def wrappedCalls : List SlabCall := [.create (2 ^ 64 - 8), .alloc 0xFFFF800000010000]

def wrappedRun : SlabRun := runLast exec fourPagesBoot wrappedCalls

/-- `kmemcache_create` returns a cache then, and its first slab counts 505 objects, none of which it has room for. -/
theorem not_books_wrapped :
    Reaches Step (boot HeapRun.fourPages HeapRun.zeroMemory) wrappedRun ∧
    0xFFFF800000010000 ∈ wrappedRun.caches ∧ ¬wrappedRun.heap.Books 0xFFFF800000010000 := by
  have hsteps : (runSteps exec fourPagesBoot wrappedCalls).isSome = true := by decide +kernel
  refine ⟨?_, by decide +kernel, fun hbooks => ?_⟩
  · rw [boot_fourPages]
    exact (trace_runLast hsteps).reaches .start
  · have hcarved := hbooks.carved 0xFFFF800000007000 (by decide +kernel)
    have hcount : (wrappedRun.heap.slabs 0xFFFF800000007000).free + (wrappedRun.heap.slabs 0xFFFF800000007000).inUse =
        505 := by decide +kernel
    have hnone : (wrappedRun.heap.caches 0xFFFF800000010000).carvedInside 0xFFFF800000007000 = 0 := by decide +kernel
    omega

end SlabRun

end LizardOs.Mm
