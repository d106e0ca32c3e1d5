import LizardOs.User.MallocSafety

/-!
# How large the blocks are

A block that `malloc`, `calloc` or `realloc` answers lies in the arena.  It is as large as the request, unless the request
is within 15 bytes of 2^64: rounded up, that wraps to 0, and any free block fits (`sizeKept_iff`).
-/

namespace LizardOs.User

open LizardOs.Lib

/-! ### Requests -/

namespace MallocCall

/-- How many bytes a call asks for. -/
def requested : MallocCall → ℕ
  | malloc size => size
  | calloc n size => n * size
  | realloc _ size _ => size
  | free _ => 0

/-- The numbers are of type `size_t`, and the pointer is null or live. -/
def Legal (s : MallocRun) : MallocCall → Prop
  | malloc size => size < 2 ^ 64
  | calloc n size => n < 2 ^ 64 ∧ size < 2 ^ 64
  | realloc ptr size _ => size < 2 ^ 64 ∧ (ptr = 0 ∨ ptr ∈ s.live)
  | free ptr => ptr = 0 ∨ ptr ∈ s.live

end MallocCall

namespace MallocHeap

/-- What a call answers, and the heap after it. -/
def answer (ar : Arena) (h : MallocHeap) : MallocCall → Option (ℕ × MallocHeap)
  | .malloc size => h.malloc ar size
  | .calloc n size => h.calloc ar n size
  | .realloc ptr size data => h.realloc ar ptr size data
  | .free ptr => (h.free ptr).map fun h => (0, h)

/-- The blocks from `b` on, `n` of them at most. -/
def blocksFrom (h : MallocHeap) : ℕ → ℕ → List ℕ
  | 0, _ => []
  | n + 1, b => if b = 0 then [] else b :: h.blocksFrom n (h.mem b).next

/-- The blocks of the heap. -/
def blocks (h : MallocHeap) : List ℕ := h.blocksFrom WALK h.gFirst

/-- The heap is set up, and no block of it is free. -/
def Full (h : MallocHeap) : Prop := h.gFirst ≠ 0 ∧ ∀ b ∈ h.blocks, (h.mem b).free = false

/-- The block of the pointer `p` lies in the arena and has room for `n` bytes. -/
structure Room (ar : Arena) (h : MallocHeap) (p n : ℕ) : Prop where
  base : ar.base ≤ p
  stop : p + (h.mem (blockOf p)).size ≤ ar.base + HEAP_SIZE
  size : n ≤ (h.mem (blockOf p)).size

end MallocHeap

/-- The pointer that a call answers, unless it is null, has room for what was asked for. -/
def SizeKept (ar : Arena) (h : MallocHeap) (c : MallocCall) : Prop :=
  ∀ p h', h.answer ar c = some (p, h') → p ≠ 0 → h'.Room ar p c.requested

/-- A `malloc` of this size does not wrap, or finds no block. -/
def MallocHeap.Bounded (h : MallocHeap) (size : ℕ) : Prop := size ≤ 2 ^ 64 - 16 ∨ h.Full

/-- When a call keeps to the size: `calloc` always does, and `realloc` of null is `malloc`. -/
def MallocCall.Bounded (h : MallocHeap) : MallocCall → Prop
  | .malloc size => h.Bounded size
  | .calloc _ _ => True
  | .realloc ptr size _ => if ptr = 0 then h.Bounded size else size ≤ 2 ^ 64 - 16
  | .free _ => True

variable {ar : Arena} {h h' : MallocHeap} {l live : List ℕ} {p n size want : ℕ} {s : MallocRun}

/-! ### The search -/

theorem blocksFrom_eq {pos link stop : ℕ}
    (hseg : Seg HDR (fun a => (h.mem a).size) (fun a => (h.mem a).next) pos link l stop 0) (hpos : 0 < pos)
    (hn : l.length < n) : h.blocksFrom n link = l := by
  induction l generalizing pos link n with
  | nil =>
    obtain ⟨k, rfl⟩ := Nat.exists_eq_add_of_lt hn
    show h.blocksFrom (0 + k + 1) link = []
    rw [MallocHeap.blocksFrom, if_pos hseg.2.symm]
  | cons b l ih =>
    obtain ⟨hlink, hposb, hrest⟩ := hseg
    rw [hposb] at hpos
    obtain ⟨k, rfl⟩ := Nat.exists_eq_add_of_lt hn
    show h.blocksFrom ((b :: l).length + k + 1) link = b :: l
    rw [hlink, MallocHeap.blocksFrom, if_neg (Nat.pos_iff_ne_zero.mp hpos),
      ih hrest (by omega) (by rw [List.length_cons]; omega)]

theorem Tiled.blocks (ht : Tiled ar h.mem l) (hfirst : h.gFirst = ar.base) : h.blocks = l := by
  rw [MallocHeap.blocks, hfirst]
  exact blocksFrom_eq ht.laid ar.pos ht.length_lt

theorem Tiled.full_iff (ht : Tiled ar h.mem l) (hfirst : h.gFirst = ar.base) :
    h.Full ↔ ∀ b ∈ l, (h.mem b).free = false := by
  have hset : h.gFirst ≠ 0 := by
    rw [hfirst]
    exact Nat.pos_iff_ne_zero.mp ar.pos
  rw [MallocHeap.Full, ht.blocks hfirst]
  exact and_iff_right hset

/-- A search for a block of any size ends with null only if no block is free. -/
theorem findFit_zero {pos link stop : ℕ}
    (hseg : Seg HDR (fun a => (h.mem a).size) (fun a => (h.mem a).next) pos link l stop 0) (hpos : 0 < pos)
    (hfind : h.findFit 0 n link = some 0) : ∀ b ∈ l, (h.mem b).free = false := by
  induction l generalizing pos link n with
  | nil =>
    intro b hb
    cases hb
  | cons a l ih =>
    obtain ⟨hlink, hposa, hrest⟩ := hseg
    rw [hposa] at hpos
    rw [hlink] at hfind
    cases n with
    | zero => cases hfind
    | succ n =>
      rw [MallocHeap.findFit, if_neg (Nat.pos_iff_ne_zero.mp hpos)] at hfind
      split at hfind
      · rename_i hcase
        have htaken := hcase.resolve_right (Nat.not_lt_zero _)
        intro b hb
        rcases List.mem_cons.mp hb with rfl | hb
        · exact htaken
        · exact ih hrest (by omega) hfind b hb
      · exact absurd (Option.some.inj hfind) (Nat.pos_iff_ne_zero.mp hpos)

/-- `malloc`, by what its search ends with. -/
theorem malloc_found {b : ℕ} (hfirst : h.gFirst = ar.base)
    (hfind : h.findFit (align16 (if want = 0 then 1 else want)) WALK ar.base = some b) :
    h.malloc ar want =
      if b = 0 then some (0, h)
      else some (b + HDR, (h.split b (align16 (if want = 0 then 1 else want))).take b) := by
  have hset : h.gFirst ≠ 0 := by
    rw [hfirst]
    exact Nat.pos_iff_ne_zero.mp ar.pos
  rw [MallocHeap.malloc]
  simp only [if_neg hset]
  rw [hfirst, hfind]

/-- In a full heap nothing is found. -/
theorem malloc_full (ht : Tiled ar h.mem l) (hfirst : h.gFirst = ar.base) (hfull : ∀ b ∈ l, (h.mem b).free = false)
    (want : ℕ) : h.malloc ar want = some (0, h) := by
  obtain ⟨b, hfind, hcases⟩ := findFit_spec (align16 (if want = 0 then 1 else want)) ht.laid ar.pos ht.length_lt
  have hnull : b = 0 := by
    refine hcases.resolve_right fun hfound => ?_
    have hfree := hfound.2.1
    rw [hfull b hfound.1] at hfree
    cases hfree
  rw [malloc_found hfirst hfind, if_pos hnull]

/-- The requests that wrap become 0. -/
theorem align16_wrap (hwrap : ¬n ≤ 2 ^ 64 - 16) (hword : n < 2 ^ 64) : align16 (if n = 0 then 1 else n) = 0 := by
  have hne : n ≠ 0 := by omega
  rw [if_neg hne, align16]
  omega

/-- A request that wraps is answered as long as a block is free. -/
theorem malloc_wrap (ht : Tiled ar h.mem l) (hfirst : h.gFirst = ar.base) (hwrap : ¬want ≤ 2 ^ 64 - 16)
    (hword : want < 2 ^ 64) (hfree : ¬∀ b ∈ l, (h.mem b).free = false) :
    ∃ b h' l', h.malloc ar want = some (b + HDR, h') ∧ HandedOut ar h l b 0 h' l' := by
  have hzero := align16_wrap hwrap hword
  rcases malloc_spec ht hfirst want with hnull | hsome
  · exfalso
    obtain ⟨b, hfind, -⟩ := findFit_spec (h := h) 0 ht.laid ar.pos ht.length_lt
    by_cases hb : b = 0
    · rw [hb] at hfind
      exact hfree (findFit_zero ht.laid ar.pos hfind)
    · rw [malloc_found hfirst (by rw [hzero]; exact hfind), if_neg hb] at hnull
      have hptr : b + HDR = 0 := (Prod.mk.inj (Option.some.inj hnull)).1
      have hpos := hdr_pos
      omega
  · rw [hzero] at hsome
    exact hsome

/-! ### The room of a block -/

/-- A live pointer lies in the arena. -/
theorem Owns.room (ho : Owns ar h live) (hp : p ∈ live) (hn : n ≤ (h.mem (MallocHeap.blockOf p)).size) :
    h.Room ar p n := by
  obtain ⟨-, l, ht, -, hlive⟩ := ho
  obtain ⟨b, hb, -, rfl⟩ := (hlive p).mp hp
  have hblock : MallocHeap.blockOf (b + HDR) = b := Nat.add_sub_cancel ..
  have hin := ht.inside hb
  refine ⟨by omega, ?_, hn⟩
  rw [hblock]
  exact hin.2.2

/-- No block has room for a request that wraps. -/
theorem not_room (hwrap : ¬n ≤ 2 ^ 64 - 16) : ¬h.Room ar p n := by
  intro hroom
  have hbase := hroom.base
  have hstop := hroom.stop
  have hsize := hroom.size
  have hheap : HEAP_SIZE ≤ 2 ^ 64 - 16 := by decide
  omega

/-- `malloc` in a heap that is set up. -/
theorem Owns.malloc_room_iff (ho : Owns ar h live) (hword : n < 2 ^ 64) :
    (∀ p h', h.malloc ar n = some (p, h') → p ≠ 0 → h'.Room ar p n) ↔ h.Bounded n := by
  obtain ⟨p, h', hr, ho', hkept⟩ := ho.malloc n
  obtain ⟨hfirst, l, ht, -, -⟩ := ho
  rw [MallocHeap.Bounded, ht.full_iff hfirst]
  constructor
  · intro hroom
    by_contra hnot
    obtain ⟨hwrap, hfree⟩ := not_or.mp hnot
    obtain ⟨b, h'', l', hsome, -⟩ := malloc_wrap ht hfirst hwrap hword hfree
    have hpos := hdr_pos
    exact not_room hwrap (hroom _ _ hsome (by omega))
  · rintro (hle | hfull) q h'' hsome hq
    · rw [hr] at hsome
      obtain ⟨rfl, rfl⟩ := Prod.mk.inj (Option.some.inj hsome)
      exact ho'.room (MallocRun.mem_answered live hq) ((MallocRun.le_align16 (by omega)).trans (hkept hq).1)
    · rw [malloc_full ht hfirst hfull] at hsome
      exact absurd (Prod.mk.inj (Option.some.inj hsome)).1.symm hq

/-- `malloc` in any state of a run. -/
theorem MallocRun.Inv.malloc_room_iff (hi : s.Inv ar) (hword : n < 2 ^ 64) :
    (∀ p h', s.heap.malloc ar n = some (p, h') → p ≠ 0 → h'.Room ar p n) ↔ s.heap.Bounded n := by
  rcases hi with ⟨hzero, -⟩ | ho
  · -- the first call finds the arena as one free block
    have hself : (s.heap.heapInit ar).mem ar.base = ⟨HEAP_SIZE - HDR, 0, true⟩ := Function.update_self ..
    have hnot : ¬(s.heap.heapInit ar).Full := by
      rw [(tiled_heapInit ar s.heap).full_iff rfl]
      intro hfull
      have hfree := hfull ar.base List.mem_cons_self
      rw [hself] at hfree
      cases hfree
    have hnot' : ¬s.heap.Full := fun hfull => hfull.1 hzero
    rw [malloc_unset hzero, (owns_heapInit ar s.heap).malloc_room_iff hword, MallocHeap.Bounded, MallocHeap.Bounded,
      or_iff_left hnot, or_iff_left hnot']
  · exact ho.malloc_room_iff hword

/-! ### All calls -/

theorem MallocRun.Inv.calloc_room (hi : s.Inv ar) {q : ℕ}
    (hsome : s.heap.calloc ar n size = some (q, h')) (hq : q ≠ 0) : h'.Room ar q (n * size) := by
  rw [MallocHeap.calloc] at hsome
  split at hsome
  · exact absurd (Prod.mk.inj (Option.some.inj hsome)).1.symm hq
  rename_i hguard
  -- the division shows that the product did not wrap
  have htotal : n * size % 2 ^ 64 = n * size := by
    by_cases hsize : size = 0
    · rw [hsize, Nat.mul_zero, Nat.zero_mod]
    · have hdiv : n * size % 2 ^ 64 / size = n := by
        by_contra hne
        exact hguard ⟨hsize, hne⟩
      have hle : n * size ≤ n * size % 2 ^ 64 := by
        have hmul := Nat.div_mul_le_self (n * size % 2 ^ 64) size
        rw [hdiv] at hmul
        exact hmul
      exact le_antisymm (Nat.mod_le _ _) hle
  rw [htotal] at hsome
  obtain ⟨p, h₁, hr, ho, hroom⟩ := hi.malloc (n * size)
  rw [hr] at hsome
  simp only at hsome
  split at hsome
  · exact absurd (Prod.mk.inj (Option.some.inj hsome)).1.symm hq
  rename_i hp
  by_cases hwrap : n * size + 15 < 2 ^ 64
  · have hfits := (MallocRun.le_align16 hwrap).trans (hroom hp)
    obtain ⟨h₂, hover, ho₂, hkept⟩ := ho.overwrite (fun _ => ⟨0, 0, false⟩) (mem_answered s.live hp) hfits
    rw [hover] at hsome
    obtain ⟨rfl, rfl⟩ := Prod.mk.inj (Option.some.inj hsome)
    refine ho₂.room (mem_answered s.live hp) ?_
    rw [hkept p (mem_answered s.live hp)]
    exact hfits
  · -- `memset` leaves the address space
    have hbig : USER_END < p + n * size := by
      rw [USER_END]
      omega
    rw [MallocHeap.overwrite, if_pos hbig] at hsome
    cases hsome

theorem MallocRun.Inv.realloc_room_iff (hi : s.Inv ar) (data : ℕ → BlockT) (hp : p ∈ s.live) (hword : n < 2 ^ 64) :
    (∀ q h', s.heap.realloc ar p n data = some (q, h') → q ≠ 0 → h'.Room ar q n) ↔ n ≤ 2 ^ 64 - 16 := by
  have hne : p ≠ 0 := (hi.owns hp).ne_zero hp
  constructor
  · intro hroom
    by_contra hwrap
    have hn : n ≠ 0 := by omega
    have hzero : align16 n = 0 := by
      have hzero := align16_wrap hwrap hword
      rwa [if_neg hn] at hzero
    have hsame : s.heap.realloc ar p n data = some (p, s.heap) := by
      rw [MallocHeap.realloc, if_neg hne, if_neg hn, hzero, if_pos (Nat.zero_le _)]
    exact not_room hwrap (hroom p s.heap hsame hne)
  · intro hle q h' hsome hq
    obtain ⟨p', h'', hr, hi', hsize⟩ := hi.realloc data (.inr hp) n
    rw [hr] at hsome
    obtain ⟨rfl, rfl⟩ := Prod.mk.inj (Option.some.inj hsome)
    by_cases hn : n = 0
    · -- a size of 0 frees the block
      exfalso
      rw [MallocHeap.realloc, if_neg hne, if_pos hn] at hr
      obtain ⟨h₁, -, heq⟩ := Option.map_eq_some_iff.mp hr
      exact hq (Prod.mk.inj heq).1.symm
    · rw [if_neg fun hboth => hq hboth.2] at hi'
      have hmem := mem_answered (s.live.erase p) hq
      have hfits := MallocRun.le_align16 (n := n) (by omega)
      rw [if_neg hn] at hfits
      exact (hi'.owns hmem).room hmem (hfits.trans (hsize hn hq))

/-- **The size of a block.**  In every state of a run, a call answers a block of the size it was asked for, in the
arena, exactly when the size does not wrap, or no block is free. -/
theorem sizeKept_iff (ar : Arena) (mem : ℕ → BlockT) {s : MallocRun}
    (h : Reaches (MallocRun.Step ar) (MallocRun.start mem) s) (c : MallocCall) (hlegal : c.Legal s) :
    SizeKept ar s.heap c ↔ c.Bounded s.heap := by
  have hinv : s.Inv ar := by
    apply h.invariant
    · exact .inl ⟨rfl, rfl⟩
    · exact fun s c s' hi hstep => hi.step hstep
  cases c with
  | malloc size => exact hinv.malloc_room_iff hlegal
  | calloc n size =>
    refine iff_of_true (fun p h' hsome hp => ?_) trivial
    exact hinv.calloc_room hsome hp
  | realloc ptr size data =>
    obtain ⟨hword, hptr⟩ := hlegal
    by_cases hnull : ptr = 0
    · have hmalloc : s.heap.realloc ar ptr size data = s.heap.malloc ar size := if_pos hnull
      have hbounded : (MallocCall.realloc ptr size data).Bounded s.heap ↔ s.heap.Bounded size := by
        rw [MallocCall.Bounded, if_pos hnull]
      rw [hbounded, ← hinv.malloc_room_iff hword, ← hmalloc]
      rfl
    · have hbounded : (MallocCall.realloc ptr size data).Bounded s.heap ↔ size ≤ 2 ^ 64 - 16 := by
        rw [MallocCall.Bounded, if_neg hnull]
      rw [hbounded, ← hinv.realloc_room_iff data (hptr.resolve_left hnull) hword]
      rfl
  | free ptr =>
    refine iff_of_true (fun p h' hsome hp => ?_) trivial
    obtain ⟨h₁, -, heq⟩ := Option.map_eq_some_iff.mp hsome
    exact absurd (Prod.mk.inj heq).1.symm hp

theorem sizeKept_iff_lowRun :
    SizeKept MallocRun.lowArena MallocRun.lowRun.heap (.malloc 40) ↔
      (MallocCall.malloc 40).Bounded MallocRun.lowRun.heap :=
  have hsteps : (runSteps (MallocRun.exec MallocRun.lowArena) (MallocRun.start fun _ => ⟨0, 0, false⟩)
      MallocRun.lowCalls).isSome = true := by decide +kernel
  sizeKept_iff MallocRun.lowArena (fun _ => ⟨0, 0, false⟩) ((trace_runLast hsteps).reaches .start) (.malloc 40)
    (show 40 < 2 ^ 64 by decide)

/-- The first call of a program, `malloc(SIZE_MAX)`, answers a block without a payload. -/
theorem not_sizeKept_max :
    ¬SizeKept MallocRun.lowArena (MallocRun.start fun _ => ⟨0, 0, false⟩).heap (.malloc (2 ^ 64 - 1)) := by
  intro hkept
  have hanswer : ((MallocRun.start fun _ => ⟨0, 0, false⟩).heap.answer MallocRun.lowArena
      (.malloc (2 ^ 64 - 1))).map Prod.fst = some 0x400020 := by decide
  obtain ⟨⟨p, h'⟩, hsome, hp⟩ := Option.map_eq_some_iff.mp hanswer
  have hp : p = 0x400020 := hp
  exact not_room (by decide) (hkept p h' hsome (by rw [hp]; decide))

end LizardOs.User
