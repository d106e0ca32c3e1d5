import LizardOs.User.HeapHeaders
import LizardOs.User.MallocSize

/-!
# `realloc` keeps the data

No call writes into the payload of a block that the program still holds.  So `realloc` answers a block that begins with
what the old one held, frees the old one only, and changes nothing when it answers null (`realloc_keeps`), in every state
that calls and stores of the program lead to.
-/

namespace LizardOs.User

open LizardOs.Lib HeapBytes

namespace HeapBytes

/-- How many bytes the block of a pointer has. -/
def payload (h : HeapBytes) (p : ℕ) : ℕ := h.size (MallocHeap.blockOf p)

/-- The block of `q` is the same, with its contents. -/
structure Keeps (h h' : HeapBytes) (q : ℕ) : Prop where
  header : h'.block (MallocHeap.blockOf q) = h.block (MallocHeap.blockOf q)
  contents : ∀ i < h.payload q, h'.mem (q + i) = h.mem (q + i)

end HeapBytes

variable {ar : Arena} {h h' h'' : HeapBytes} {live l : List ℕ} {b p q n want : ℕ} {s s' : HeapRun}

theorem blockOf_add (b : ℕ) : MallocHeap.blockOf (b + HDR) = b := Nat.add_sub_cancel ..

theorem HeapBytes.Keeps.payload (hk : Keeps h h' q) : h'.payload q = h.payload q := congrArg BlockT.size hk.header

theorem HeapBytes.Keeps.trans (hk : Keeps h h' q) (hk' : Keeps h' h'' q) : Keeps h h'' q :=
  ⟨hk'.header.trans hk.header, fun i hi =>
    (hk'.contents i (by rw [hk.payload]; exact hi)).trans (hk.contents i hi)⟩

/-- A block none of whose bytes changes. -/
theorem keeps_of_same (hsame : ∀ x, b ≤ x → x < b + HDR + (h.block b).size → h'.mem x = h.mem x) :
    Keeps h h' (b + HDR) := by
  have hhdr : HDR = 32 := rfl
  refine ⟨?_, fun i hi => hsame _ (by omega) ?_⟩
  · rw [blockOf_add]
    exact block_congr fun x h1 h2 => hsame x h1 (by omega)
  · rw [HeapBytes.payload, blockOf_add] at hi
    have hi : i < (h.block b).size := hi
    omega

/-! ### The calls on live pointers -/

theorem Owns.malloc_bytes (ho : Owns ar h.heads live) (want : ℕ) :
    ∃ p h', h.malloc ar want = some (p, h') ∧ Owns ar h'.heads (MallocRun.answered live p) ∧ (p = 0 → h' = h) ∧
      (p ≠ 0 → p ∉ live ∧ align16 (if want = 0 then 1 else want) ≤ h'.payload p ∧ ∀ q ∈ live, Keeps h h' q) := by
  obtain ⟨hfirst, l, ht, hnodup, hlive⟩ := ho
  rcases LizardOs.User.malloc_bytes ht hfirst want with hnull | ⟨b, h', l', hsome, hout, hb, hbfree, hmem⟩
  · exact ⟨0, h, hnull, ⟨hfirst, l, ht, hnodup, hlive⟩, fun _ => rfl, fun hne => absurd rfl hne⟩
  · have hpos := hdr_pos
    have hne : b + HDR ≠ 0 := by omega
    have hlive' : MallocRun.answered live (b + HDR) = (b + HDR) :: live := if_neg hne
    have hfresh : b + HDR ∉ live := fun hold => hout.fresh ((hlive _).mp hold)
    refine ⟨b + HDR, h', hsome, ⟨hout.first.trans hfirst, l', hout.tiled, ?_, fun q => ?_⟩, fun hzero => absurd hzero hne,
      fun _ => ⟨hfresh, ?_, fun q hq => ?_⟩⟩
    · rw [hlive']
      exact List.nodup_cons.mpr ⟨hfresh, hnodup⟩
    · rw [hlive', List.mem_cons, hlive q, hout.taken q]
      exact Or.comm
    · rw [HeapBytes.payload, blockOf_add]
      exact hout.size
    · obtain ⟨a, ha, hafree, rfl⟩ := (hlive q).mp hq
      have hafree : (h.block a).free = false := hafree
      have hab : a ≠ b := by
        intro hab
        rw [hab, hbfree] at hafree
        cases hafree
      have hapart : RangesApart a (HDR + (h.block a).size) b (HDR + (h.block b).size) := ht.apart ha hb hab
      refine keeps_of_same fun x h1 h2 => hmem x ?_
      rcases hapart with hle | hle
      · omega
      · omega

theorem Owns.release (ho : Owns ar h.heads live) (hp : p ∈ live) :
    ∃ h', h.release p = some h' ∧ Owns ar h'.heads (live.erase p) ∧ ∀ q ∈ live, q ≠ p → Keeps h h' q := by
  obtain ⟨hfirst, l, ht, hnodup, hlive⟩ := ho
  obtain ⟨b, hb, hbfree, rfl⟩ := (hlive p).mp hp
  obtain ⟨H', l', hfree, hfirst', ht', hgone, -, hsub⟩ := free_spec ht hfirst ((hlive _).mp hp)
  have hmemfirst : h.heads.gFirst ∈ l := by
    cases l with
    | nil => cases hb
    | cons c l =>
      rw [hfirst, show ar.base = c from ht.laid.1]
      exact List.mem_cons_self
  obtain ⟨h', hrun, ha', hmem⟩ := (agree_heads ht).release hb hmemfirst hfree
  have hblocks : ∀ a ∈ l', h'.block a = H'.mem a := fun a ha => ha'.blocks a (hsub ha)
  have htaken : ∀ q, Taken h'.block l' q ↔ Taken H'.mem l' q := fun q => Taken.congr hblocks
  refine ⟨h', hrun, ⟨ha'.first.trans hfirst', l', ht'.congr hblocks, hnodup.erase _, fun q => ?_⟩, fun q hq hne => ?_⟩
  · rw [hnodup.mem_erase_iff, hlive q]
    exact And.comm.trans ((hgone q).symm.trans (htaken q).symm)
  · obtain ⟨a, ha, hafree, rfl⟩ := (hlive q).mp hq
    have hab : a ≠ b := fun hab => hne (by rw [hab])
    have hhdr : HDR = 32 := rfl
    refine keeps_of_same fun x h1 h2 => hmem x ?_ fun c hc hcfree => ?_
    · have hapart : RangesApart a (HDR + (h.block a).size) b (HDR + (h.block b).size) := ht.apart ha hb hab
      rcases hapart with hle | hle
      · omega
      · omega
    · have hac : a ≠ c := by
        intro hac
        rw [hac, hcfree] at hafree
        cases hafree
      have hapart : RangesApart a (HDR + (h.block a).size) c (HDR + (h.block c).size) := ht.apart ha hc hac
      rcases hapart with hle | hle
      · omega
      · omega

/-- A live payload lies in the user half. -/
theorem Owns.payload_le (ho : Owns ar h.heads live) (hp : p ∈ live) (hn : n ≤ h.payload p) : p + n ≤ USER_END := by
  have hroom : h.heads.Room ar p n := ho.room hp hn
  have hstop : p + h.payload p ≤ ar.base + HEAP_SIZE := hroom.stop
  have hfits := ar.fits
  omega

/-- What is written inside the payload of one block leaves the headers and the other payloads as they are. -/
theorem Owns.write (ho : Owns ar h.heads live) (hp : p ∈ live) (hn : n ≤ h.payload p) (hfirst' : h'.gFirst = h.gFirst)
    (hmem : ∀ x, x < p ∨ p + n ≤ x → h'.mem x = h.mem x) :
    Owns ar h'.heads live ∧ (∀ q ∈ live, h'.payload q = h.payload q) ∧ ∀ q ∈ live, q ≠ p → Keeps h h' q := by
  obtain ⟨hfirst, l, ht, hnodup, hlive⟩ := ho
  obtain ⟨b, hb, -, rfl⟩ := (hlive p).mp hp
  rw [HeapBytes.payload, blockOf_add] at hn
  have hn : n ≤ (h.block b).size := hn
  have hhdr : HDR = 32 := rfl
  have hapart : ∀ a ∈ l, a ≠ b → RangesApart a (HDR + (h.block a).size) b (HDR + (h.block b).size) :=
    fun a ha hab => ht.apart ha hb hab
  have hblocks : ∀ a ∈ l, h'.block a = h.block a := by
    intro a ha
    refine block_congr fun x h1 h2 => hmem x ?_
    by_cases hab : a = b
    · omega
    · rcases hapart a ha hab with hle | hle
      · omega
      · omega
  refine ⟨⟨hfirst'.trans hfirst, l, ht.congr hblocks, hnodup, fun q => ?_⟩, fun q hq => ?_, fun q hq hne => ?_⟩
  · rw [hlive q]
    exact (Taken.congr hblocks).symm
  · obtain ⟨a, ha, -, rfl⟩ := (hlive q).mp hq
    rw [HeapBytes.payload, HeapBytes.payload, blockOf_add]
    exact congrArg BlockT.size (hblocks a ha)
  · obtain ⟨a, ha, -, rfl⟩ := (hlive q).mp hq
    have hab : a ≠ b := fun hab => hne (by rw [hab])
    refine keeps_of_same fun x h1 h2 => hmem x ?_
    rcases hapart a ha hab with hle | hle
    · omega
    · omega

/-! ### `memset` and `memcpy` -/

theorem memset_spec (hend : p + n ≤ USER_END) :
    ∃ h', h.memset p n = some h' ∧ h'.gFirst = h.gFirst ∧ ∀ x, x < p ∨ p + n ≤ x → h'.mem x = h.mem x := by
  refine ⟨_, if_neg (by omega), rfl, fun x hx => ?_⟩
  have hloop : n ≤ n → forLoop n (fun i m => Function.update m (p + i) 0) h.mem x = h.mem x := by
    refine forLoop_invariant (I := fun k (m : Buf) => k ≤ n → m x = h.mem x) (fun _ => rfl) fun i m hi hm hle => ?_
    rw [Function.update_of_ne (by omega)]
    exact hm (by omega)
  exact hloop le_rfl

theorem memcpy_spec {dst src : ℕ} (hdst : dst + n ≤ USER_END) (hsrc : src + n ≤ USER_END)
    (hapart : RangesApart dst n src n) :
    ∃ h', h.memcpy dst src n = some h' ∧ h'.gFirst = h.gFirst ∧
      (∀ i < n, h'.mem (dst + i) = h.mem (src + i)) ∧ ∀ x, x < dst ∨ dst + n ≤ x → h'.mem x = h.mem x := by
  have hcopy : bytes.copyUp dst src n h.mem = splice h.mem dst (fun j => h.mem (src + j)) n := by
    rw [RangesApart] at hapart
    exact bytes.get_copyUp (by omega)
  refine ⟨_, if_neg (by omega), rfl, fun i hi => ?_, fun x hx => ?_⟩
  · exact (congrFun hcopy (dst + i)).trans (splice_inside hi)
  · exact (congrFun hcopy x).trans (splice_outside hx)

/-! ### `realloc` -/

/-- The pointer is that of a block of the heap that is not free. -/
def HeapBytes.Live (h : HeapBytes) (p : ℕ) : Prop := Taken h.block h.heads.blocks p

theorem Owns.live_iff (ho : Owns ar h.heads live) (q : ℕ) : h.Live q ↔ q ∈ live := by
  obtain ⟨hfirst, l, ht, -, hlive⟩ := ho
  rw [HeapBytes.Live, ht.blocks hfirst, hlive q]
  exact Iff.rfl

/-- Two live payloads share no byte. -/
theorem Owns.apart (ho : Owns ar h.heads live) (hp : p ∈ live) (hq : q ∈ live) (hne : p ≠ q) :
    RangesApart p (h.payload p) q (h.payload q) := by
  obtain ⟨-, l, ht, -, hlive⟩ := ho
  obtain ⟨a, ha, -, rfl⟩ := (hlive p).mp hp
  obtain ⟨c, hc, -, rfl⟩ := (hlive q).mp hq
  have hac : a ≠ c := fun hac => hne (by rw [hac])
  have hhdr : HDR = 32 := rfl
  have hapart : RangesApart a (HDR + (h.block a).size) c (HDR + (h.block c).size) := ht.apart ha hc hac
  rw [HeapBytes.payload, HeapBytes.payload, blockOf_add, blockOf_add]
  refine hapart.mono (by omega) ?_ (by omega) ?_
  · show a + HDR + (h.block a).size ≤ _
    omega
  · show c + HDR + (h.block c).size ≤ _
    omega

/-- What a `realloc` of the live pointer `p` to `n` bytes has done when it answers `q`. -/
structure Reallocated (h : HeapBytes) (live : List ℕ) (p n q : ℕ) (h' : HeapBytes) : Prop where
  /-- The new block begins with what the old one held. -/
  data : ∀ i < min (h.payload p) n, h'.mem (q + i) = h.mem (p + i)
  /-- The other live blocks are what they were. -/
  others : ∀ r ∈ live, r ≠ p → Keeps h h' r
  /-- The old block is free, unless it is the new one, and nothing else has been freed. -/
  freed : ∀ r, h'.Live r ↔ r = q ∨ (r ∈ live ∧ r ≠ p)

theorem Owns.realloc_bytes (ho : Owns ar h.heads live) (hp : p ∈ live) (hn : n ≠ 0) :
    ∃ q h', h.realloc ar p n = some (q, h') ∧ (q = 0 → h' = h) ∧
      (q ≠ 0 → Reallocated h live p n q h' ∧ Owns ar h'.heads (MallocRun.answered (live.erase p) q)) := by
  have hne : p ≠ 0 := ho.ne_zero hp
  rw [HeapBytes.realloc, if_neg hne, if_neg hn]
  simp only []
  by_cases hfits : align16 n ≤ h.size (MallocHeap.blockOf p)
  · rw [if_pos hfits]
    refine ⟨p, h, rfl, fun _ => rfl, fun _ => ⟨⟨fun i _ => rfl, fun r _ _ => ⟨rfl, fun i _ => rfl⟩, fun r => ?_⟩, ?_⟩⟩
    · rw [ho.live_iff]
      by_cases hr : r = p
      · rw [hr]
        exact iff_of_true hp (.inl rfl)
      · exact ⟨fun hmem => .inr ⟨hmem, hr⟩, fun hcase => (hcase.resolve_left hr).1⟩
    · rw [MallocRun.answered, if_neg hne]
      obtain ⟨hfirst, l, ht, hnodup, hlive⟩ := ho
      have hperm := List.perm_cons_erase hp
      exact ⟨hfirst, l, ht, hperm.nodup_iff.mp hnodup, fun r => (hperm.mem_iff.symm).trans (hlive r)⟩
  · rw [if_neg hfits]
    obtain ⟨q, h₁, hmalloc, ho₁, hnull, hsome⟩ := ho.malloc_bytes n
    rw [hmalloc]
    simp only []
    by_cases hq : q = 0
    · rw [if_pos hq, hnull hq]
      exact ⟨0, h, rfl, fun _ => rfl, fun hzero => absurd rfl hzero⟩
    · rw [if_neg hq]
      obtain ⟨hfresh, hroom, hkept₁⟩ := hsome hq
      rw [if_neg hn] at hroom
      have hlive₁ : MallocRun.answered live q = q :: live := if_neg hq
      rw [hlive₁] at ho₁
      have hmemq : q ∈ q :: live := List.mem_cons_self
      have hmemp : p ∈ q :: live := List.mem_cons_of_mem _ hp
      have hqp : q ≠ p := fun heq => hfresh (heq ▸ hp)
      -- the old payload is smaller than the new one
      have hsize : h₁.size (MallocHeap.blockOf p) = h.payload p := (hkept₁ p hp).payload
      have hless : h.payload p ≤ h₁.payload q := by
        rw [HeapBytes.payload]
        omega
      have hendq := ho₁.payload_le hmemq hless
      have hendp := ho.payload_le hp le_rfl
      have hapart := ho₁.apart hmemq hmemp hqp
      rw [(hkept₁ p hp).payload] at hapart
      obtain ⟨h₂, hcopy, hfirst₂, hdata₂, hother₂⟩ := memcpy_spec (h := h₁) hendq hendp
        (hapart.mono le_rfl (by omega) le_rfl le_rfl)
      obtain ⟨ho₂, hpayload₂, hkept₂⟩ := ho₁.write hmemq hless hfirst₂ hother₂
      obtain ⟨h₃, hfree, ho₃, hkept₃⟩ := ho₂.release hmemp
      rw [hsize, hcopy]
      simp only []
      rw [hfree]
      have hlist : (q :: live).erase p = q :: live.erase p := List.erase_cons_tail (by simpa using hqp)
      rw [hlist] at ho₃
      have hnodup : live.Nodup := ho.2.choose_spec.2.1
      refine ⟨q, h₃, rfl, fun hzero => absurd hzero hq, fun _ => ⟨⟨fun i hi => ?_, fun r hr hrp => ?_, fun r => ?_⟩, ?_⟩⟩
      · have hiq : i < h₂.payload q := by
          rw [hpayload₂ q hmemq]
          omega
        rw [(hkept₃ q hmemq hqp).contents i hiq, hdata₂ i (by omega), (hkept₁ p hp).contents i (by omega)]
      · have hrq : r ≠ q := fun heq => hfresh (heq ▸ hr)
        have hmemr : r ∈ q :: live := List.mem_cons_of_mem _ hr
        exact ((hkept₁ r hr).trans (hkept₂ r hmemr hrq)).trans (hkept₃ r hmemr hrp)
      · rw [ho₃.live_iff, List.mem_cons, hnodup.mem_erase_iff]
        exact or_congr_right And.comm
      · rw [MallocRun.answered, if_neg hq]
        exact ho₃

/-! ### Runs -/

namespace HeapRun

/-- What every run keeps: the heap is not set up yet, or it is in order. -/
def Inv (ar : Arena) (s : HeapRun) : Prop :=
  (s.heap.gFirst = 0 ∧ s.live = []) ∨ Owns ar s.heap.heads s.live

theorem Inv.owns (hi : s.Inv ar) (hp : p ∈ s.live) : Owns ar s.heap.heads s.live := by
  rcases hi with ⟨-, hlive⟩ | ho
  · rw [hlive] at hp
    cases hp
  · exact ho

theorem owns_heapInit_bytes (ar : Arena) (h : HeapBytes) : Owns ar (h.heapInit ar).heads [] := by
  obtain ⟨hfirst, l, ht, hnodup, hlive⟩ := owns_heapInit ar ⟨h.block, 0⟩
  have hsize := wrote_setSize (h := { h with gFirst := ar.base }) (b := ar.base) (s := HEAP_SIZE - HDR) (by decide)
  have hnext := wrote_setNext (h := ({ h with gFirst := ar.base } : HeapBytes).setSize ar.base (HEAP_SIZE - HDR))
    (b := ar.base) (n := 0) (by decide)
  have hfree := wrote_setFree (h := (({ h with gFirst := ar.base } : HeapBytes).setSize ar.base
    (HEAP_SIZE - HDR)).setNext ar.base 0) (b := ar.base) (f := 1) (by decide)
  rw [hsize.block] at hnext
  rw [hnext.block] at hfree
  have hself : (MallocHeap.heapInit ar ⟨h.block, 0⟩).mem ar.base = ⟨HEAP_SIZE - HDR, 0, true⟩ := Function.update_self ..
  have hblocks : ∀ a ∈ [ar.base], (h.heapInit ar).block a = (MallocHeap.heapInit ar ⟨h.block, 0⟩).mem a := by
    intro a ha
    rw [List.mem_singleton.mp ha, hself]
    exact hfree.block
  refine ⟨rfl, [ar.base], (tiled_heapInit ar ⟨h.block, 0⟩).congr hblocks, List.nodup_nil, fun q => ?_⟩
  refine iff_of_false List.not_mem_nil fun htaken => ?_
  obtain ⟨a, ha, hafree, -⟩ := (Taken.congr hblocks).mp htaken
  rw [List.mem_singleton.mp ha, hself] at hafree
  cases hafree

/-- A `malloc` from any state of a run returns. -/
theorem Inv.malloc (hi : s.Inv ar) (want : ℕ) :
    ∃ p h', s.heap.malloc ar want = some (p, h') ∧ Owns ar h'.heads (MallocRun.answered s.live p) ∧
      (p ≠ 0 → align16 (if want = 0 then 1 else want) ≤ h'.payload p) := by
  rcases hi with ⟨hzero, hlive⟩ | ho
  · have hne : ar.base ≠ 0 := Nat.pos_iff_ne_zero.mp ar.pos
    have hbase : (s.heap.heapInit ar).gFirst = ar.base := rfl
    have hunset : s.heap.malloc ar want = (s.heap.heapInit ar).malloc ar want := by
      rw [HeapBytes.malloc, HeapBytes.malloc]
      simp only [if_pos hzero, hbase, if_neg hne]
    rw [hunset, hlive]
    obtain ⟨p, h', hr, ho', -, hsome⟩ := (owns_heapInit_bytes ar s.heap).malloc_bytes want
    exact ⟨p, h', hr, ho', fun hp => (hsome hp).2.1⟩
  · obtain ⟨p, h', hr, ho', -, hsome⟩ := ho.malloc_bytes want
    exact ⟨p, h', hr, ho', fun hp => (hsome hp).2.1⟩

theorem Inv.calloc {size : ℕ} (hi : s.Inv ar) (hr : s.heap.calloc ar n size = some (p, h')) :
    Inv ar ⟨h', MallocRun.answered s.live p⟩ := by
  rw [HeapBytes.calloc] at hr
  split at hr
  · obtain ⟨rfl, rfl⟩ := Prod.mk.inj (Option.some.inj hr)
    exact hi
  · obtain ⟨q, h₁, hmalloc, ho, hroom⟩ := hi.malloc (n * size % 2 ^ 64)
    rw [hmalloc] at hr
    simp only at hr
    split at hr
    · rename_i hq
      obtain ⟨rfl, rfl⟩ := Prod.mk.inj (Option.some.inj hr)
      rw [hq] at ho
      exact .inr ho
    · rename_i hq
      obtain ⟨h₂, hset, heq⟩ := Option.map_eq_some_iff.mp hr
      obtain ⟨rfl, rfl⟩ := Prod.mk.inj heq
      have hmem := MallocRun.mem_answered s.live hq
      by_cases hwrap : n * size % 2 ^ 64 + 15 < 2 ^ 64
      · have hfits := (MallocRun.le_align16 hwrap).trans (hroom hq)
        have hend := ho.payload_le hmem hfits
        obtain ⟨h₃, hset', hfirst, hother⟩ := memset_spec (h := h₁) hend
        rw [hset'] at hset
        obtain rfl := Option.some.inj hset
        exact .inr (ho.write hmem hfits hfirst hother).1
      · -- the range goes round the whole address space
        have hbig : USER_END < q + n * size % 2 ^ 64 := by
          rw [USER_END]
          omega
        rw [HeapBytes.memset, if_pos hbig] at hset
        cases hset

theorem Inv.step {c : HeapCall} (hi : s.Inv ar) (hstep : s.Step ar c s') : s'.Inv ar := by
  rw [Step] at hstep
  cases c with
  | malloc size =>
    obtain ⟨p, h', hr, ho, -⟩ := hi.malloc size
    rw [exec, hr] at hstep
    obtain rfl := Option.some.inj hstep
    exact .inr ho
  | calloc n size =>
    obtain ⟨⟨p, h'⟩, hr, rfl⟩ := Option.map_eq_some_iff.mp hstep
    exact hi.calloc hr
  | realloc ptr size =>
    rw [exec] at hstep
    split at hstep
    · rename_i hptr
      obtain ⟨⟨q, h'⟩, hr, rfl⟩ := Option.map_eq_some_iff.mp hstep
      by_cases hnull : ptr = 0
      · have hmalloc : s.heap.realloc ar ptr size = s.heap.malloc ar size := if_pos hnull
        obtain ⟨p, h'', hr', ho, -⟩ := hi.malloc size
        rw [hmalloc, hr'] at hr
        obtain ⟨rfl, rfl⟩ := Prod.mk.inj (Option.some.inj hr)
        have hzero : (0 : ℕ) ∉ s.live := fun hmem => (hi.owns hmem).ne_zero hmem rfl
        right
        show Owns ar h''.heads (if size ≠ 0 ∧ p = 0 then s.live else MallocRun.answered (s.live.erase ptr) p)
        rw [hnull, List.erase_of_not_mem hzero]
        split
        · rename_i hboth
          rw [hboth.2] at ho
          exact ho
        · exact ho
      · have hmem := hptr.resolve_left hnull
        have ho := hi.owns hmem
        by_cases hsize : size = 0
        · obtain ⟨h'', hfree, ho', -⟩ := ho.release hmem
          rw [HeapBytes.realloc, if_neg hnull, if_pos hsize, hfree] at hr
          obtain ⟨rfl, rfl⟩ := Prod.mk.inj (Option.some.inj hr)
          right
          show Owns ar h''.heads (if size ≠ 0 ∧ 0 = 0 then s.live else MallocRun.answered (s.live.erase ptr) 0)
          rw [if_neg fun hboth => hboth.1 hsize]
          exact ho'
        · obtain ⟨q', h'', hr', hnull', hsome⟩ := ho.realloc_bytes hmem hsize
          rw [hr'] at hr
          obtain ⟨rfl, rfl⟩ := Prod.mk.inj (Option.some.inj hr)
          right
          show Owns ar h''.heads (if size ≠ 0 ∧ q' = 0 then s.live else MallocRun.answered (s.live.erase ptr) q')
          by_cases hq : q' = 0
          · rw [if_pos ⟨hsize, hq⟩, hnull' hq]
            exact ho
          · rw [if_neg fun hboth => hq hboth.2]
            exact (hsome hq).2
    · cases hstep
  | free ptr =>
    rw [exec] at hstep
    split at hstep
    · rename_i hptr
      obtain ⟨h', hr, rfl⟩ := Option.map_eq_some_iff.mp hstep
      by_cases hnull : ptr = 0
      · have hzero : (0 : ℕ) ∉ s.live := fun hmem => (hi.owns hmem).ne_zero hmem rfl
        rw [hnull, HeapBytes.release, if_pos rfl] at hr
        obtain rfl := Option.some.inj hr
        rw [hnull, List.erase_of_not_mem hzero]
        exact hi
      · obtain ⟨h'', hr', ho, -⟩ := (hi.owns (hptr.resolve_left hnull)).release (hptr.resolve_left hnull)
        rw [hr'] at hr
        obtain rfl := Option.some.inj hr
        exact .inr ho
    · cases hstep
  | store ptr i v =>
    rw [exec] at hstep
    split at hstep
    · rename_i hcase
      obtain rfl := Option.some.inj hstep
      have hpayload : s.heap.payload ptr = s.heap.size (MallocHeap.blockOf ptr) := rfl
      set h' : HeapBytes := { s.heap with mem := Function.update s.heap.mem (ptr + i) v }
      have hother : ∀ x, x < ptr ∨ ptr + (i + 1) ≤ x → h'.mem x = s.heap.mem x :=
        fun x hx => Function.update_of_ne (by omega) ..
      have hroom : i + 1 ≤ s.heap.payload ptr := by omega
      have hfirst : h'.gFirst = s.heap.gFirst := rfl
      exact .inr ((hi.owns hcase.1).write hcase.1 hroom hfirst hother).1
    · cases hstep

/-- **`realloc`.**  In every state of a run, a `realloc` of a live pointer returns.  Unless it answers null, the new block
begins with what the old one held, the other live blocks are untouched, and the old one alone is freed; if it answers
null, nothing has changed, and the pointer is still live. -/
theorem realloc_keeps (ar : Arena) (mem : Buf) {s : HeapRun} (h : Reaches (Step ar) (start mem) s) {p n : ℕ}
    (hp : p ∈ s.live) (hn : 1 ≤ n) :
    ∃ q h', s.heap.realloc ar p n = some (q, h') ∧ (q ≠ 0 → Reallocated s.heap s.live p n q h') ∧
      (q = 0 → h' = s.heap ∧ ∀ r, h'.Live r ↔ r ∈ s.live) := by
  have hinv : s.Inv ar := by
    apply h.invariant
    · exact .inl ⟨rfl, rfl⟩
    · exact fun s c s' hi hstep => hi.step hstep
  have ho := hinv.owns hp
  obtain ⟨q, h', hr, hnull, hsome⟩ := ho.realloc_bytes hp (Nat.one_le_iff_ne_zero.mp hn)
  refine ⟨q, h', hr, fun hq => (hsome hq).1, fun hq => ⟨hnull hq, fun r => ?_⟩⟩
  rw [hnull hq]
  exact ho.live_iff r

/-- Two blocks, and a byte in the first one. -/
def twoCalls : List HeapCall := [.malloc 20, .malloc 40, .store 0x400020 19 7]

def twoBlocks : HeapRun := runLast (exec MallocRun.lowArena) (start fun _ => 0) twoCalls

theorem realloc_keeps_twoBlocks :
    ∃ q h', twoBlocks.heap.realloc MallocRun.lowArena 0x400020 50 = some (q, h') ∧
      (q ≠ 0 → Reallocated twoBlocks.heap twoBlocks.live 0x400020 50 q h') ∧
      (q = 0 → h' = twoBlocks.heap ∧ ∀ r, h'.Live r ↔ r ∈ twoBlocks.live) :=
  have hsteps : (runSteps (exec MallocRun.lowArena) (start fun _ => 0) twoCalls).isSome = true := by decide
  realloc_keeps MallocRun.lowArena (fun _ => 0) ((trace_runLast hsteps).reaches .start)
    (show 0x400020 ∈ twoBlocks.live by decide) (by decide)

end HeapRun

end LizardOs.User
