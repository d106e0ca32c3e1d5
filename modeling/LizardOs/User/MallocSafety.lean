import LizardOs.Lib.BlockChain
import LizardOs.Lib.Strides
import LizardOs.User.Malloc
import Mathlib.Data.List.Chain

/-!
# The blocks tile the arena

The list from `g_first` fills the arena without a gap, every payload is a multiple of 16 bytes, no two neighbours
are free, and the live pointers are the payloads of the blocks that are taken.  Each call keeps this, and each call
returns, except a `calloc` of nearly 2^64 bytes, which runs out of the user half.
-/

namespace LizardOs.User

open LizardOs.Lib

/-- No two neighbours are free. -/
def Settled (mem : ℕ → BlockT) (l : List ℕ) : Prop :=
  l.IsChain fun a b => ¬((mem a).free = true ∧ (mem b).free = true)

/-- The blocks of `l` from `pos` on reach to `stop`, the last one without a successor. -/
abbrev Laid (mem : ℕ → BlockT) (pos : ℕ) (l : List ℕ) (stop : ℕ) : Prop :=
  Seg HDR (fun a => (mem a).size) (fun a => (mem a).next) pos pos l stop 0

/-- The list of the blocks in the arena. -/
structure Tiled (ar : Arena) (mem : ℕ → BlockT) (l : List ℕ) : Prop where
  laid : Laid mem ar.base l (ar.base + HEAP_SIZE)
  sizes : ∀ b ∈ l, 16 ∣ (mem b).size
  settled : Settled mem l

/-- The pointer is the payload of a block that is taken. -/
def Taken (mem : ℕ → BlockT) (l : List ℕ) (p : ℕ) : Prop := ∃ b ∈ l, (mem b).free = false ∧ p = b + HDR

variable {ar : Arena} {mem mem' : ℕ → BlockT} {l m l₁ l₂ : List ℕ} {b c p want : ℕ} {h h' : MallocHeap}

/-! ### Free neighbours -/

theorem Settled.congr (hs : Settled mem l) (hfree : ∀ b ∈ l, (mem' b).free = (mem b).free) : Settled mem' l := by
  refine List.IsChain.imp_of_mem_imp (fun a b ha hb hab => ?_) hs
  rw [hfree a ha, hfree b hb]
  exact hab

/-- A taken block parts its two sides. -/
theorem settled_taken (hb : (mem b).free = false) : Settled mem (l ++ b :: m) ↔ Settled mem l ∧ Settled mem m := by
  rw [Settled, List.isChain_append, List.isChain_cons]
  have hno : ¬(mem b).free = true := by
    rw [hb]
    decide
  constructor
  · intro hall
    exact ⟨hall.1, hall.2.1.2⟩
  · intro ⟨h1, h2⟩
    refine ⟨h1, ⟨fun y _ hy => hno hy.1, h2⟩, fun x _ y hy hxy => ?_⟩
    rw [List.head?_cons, Option.mem_some] at hy
    rw [hy] at hno
    exact hno hxy.2

theorem settled_cons : Settled mem (b :: m) ↔
    (∀ y ∈ m.head?, ¬((mem b).free = true ∧ (mem y).free = true)) ∧ Settled mem m := List.isChain_cons

/-! ### Tilings -/

theorem hdr_pos : 0 < HDR := by decide

/-- Only the headers of the blocks matter. -/
theorem Tiled.congr (ht : Tiled ar mem l) (hmem : ∀ b ∈ l, mem' b = mem b) : Tiled ar mem' l := by
  refine ⟨ht.laid.congr (fun b hb => ?_) (fun b hb => ?_), fun b hb => ?_, ht.settled.congr fun b hb => ?_⟩
  · rw [hmem b hb]
  · rw [hmem b hb]
  · rw [hmem b hb]
    exact ht.sizes b hb
  · rw [hmem b hb]

theorem Taken.congr (hmem : ∀ b ∈ l, mem' b = mem b) : Taken mem' l p ↔ Taken mem l p := by
  constructor
  · intro ⟨b, hb, hfree, hp⟩
    rw [hmem b hb] at hfree
    exact ⟨b, hb, hfree, hp⟩
  · intro ⟨b, hb, hfree, hp⟩
    rw [← hmem b hb] at hfree
    exact ⟨b, hb, hfree, hp⟩

/-- A block is not null, and lies inside the arena with its payload. -/
theorem Tiled.inside (ht : Tiled ar mem l) (hb : b ∈ l) :
    0 < b ∧ ar.base ≤ b ∧ b + HDR + (mem b).size ≤ ar.base + HEAP_SIZE := by
  have hin := ht.laid.inside hb
  have hpos := ar.pos
  exact ⟨by omega, hin⟩

theorem Tiled.length_lt (ht : Tiled ar mem l) : l.length < WALK := by
  have hlen := ht.laid.length_le
  have hle : l.length * HDR ≤ HEAP_SIZE := by omega
  have hdiv : l.length ≤ HEAP_SIZE / HDR := (Nat.le_div_iff_mul_le hdr_pos).mpr hle
  exact Nat.lt_succ_of_le hdiv

/-- The arena as one free block. -/
theorem tiled_heapInit (ar : Arena) (h : MallocHeap) : Tiled ar (h.heapInit ar).mem [ar.base] := by
  have hself : (h.heapInit ar).mem ar.base = ⟨HEAP_SIZE - HDR, 0, true⟩ := Function.update_self ..
  refine ⟨⟨rfl, rfl, ?_, ?_⟩, fun b hb => ?_, List.isChain_singleton _⟩
  · show ar.base + HEAP_SIZE = ar.base + HDR + ((h.heapInit ar).mem ar.base).size
    rw [hself]
    show ar.base + HEAP_SIZE = ar.base + HDR + (HEAP_SIZE - HDR)
    have hle : HDR ≤ HEAP_SIZE := by decide
    omega
  · show 0 = ((h.heapInit ar).mem ar.base).next
    rw [hself]
  · rw [List.mem_singleton.mp hb, hself]
    decide

/-! ### Following the list -/

/-- The search of `malloc` ends, with null or with a free block that is large enough. -/
theorem findFit_spec (want : ℕ) {pos link stop n : ℕ}
    (hseg : Seg HDR (fun a => (h.mem a).size) (fun a => (h.mem a).next) pos link l stop 0) (hpos : 0 < pos)
    (hn : l.length < n) :
    ∃ r, h.findFit want n link = some r ∧
      (r = 0 ∨ (r ∈ l ∧ (h.mem r).free = true ∧ want ≤ (h.mem r).size)) := by
  induction l generalizing pos link n with
  | nil =>
    obtain ⟨k, rfl⟩ := Nat.exists_eq_add_of_lt hn
    refine ⟨0, ?_, .inl rfl⟩
    show h.findFit want (0 + k + 1) link = some 0
    rw [MallocHeap.findFit, if_pos hseg.2.symm]
  | cons b l ih =>
    obtain ⟨hlink, hposb, hrest⟩ := hseg
    rw [hposb] at hpos
    rw [hlink]
    obtain ⟨k, rfl⟩ := Nat.exists_eq_add_of_lt hn
    show ∃ r, h.findFit want ((b :: l).length + k + 1) b = some r ∧ _
    rw [MallocHeap.findFit, if_neg (Nat.pos_iff_ne_zero.mp hpos)]
    split
    · obtain ⟨r, hr, hcases⟩ := ih hrest (by omega) (n := (b :: l).length + k) (by rw [List.length_cons]; omega)
      refine ⟨r, hr, ?_⟩
      rcases hcases with hzero | ⟨hmem, hfit⟩
      · exact .inl hzero
      · exact .inr ⟨List.mem_cons_of_mem _ hmem, hfit⟩
    · rename_i hfit
      obtain ⟨hfree, hsize⟩ := not_or.mp hfit
      exact ⟨b, rfl, .inr ⟨List.mem_cons_self, by simpa using hfree, Nat.le_of_not_lt hsize⟩⟩

/-- The search of `free` ends at the block in front. -/
theorem findPrev_spec {pos link stop n : ℕ}
    (hseg : Seg HDR (fun a => (h.mem a).size) (fun a => (h.mem a).next) pos link (l ++ p :: b :: m) stop 0)
    (hpos : 0 < pos) (hn : l.length < n) : h.findPrev b n link = some p := by
  induction l generalizing pos link n with
  | nil =>
    obtain ⟨k, rfl⟩ := Nat.exists_eq_add_of_lt hn
    obtain ⟨hlink, hposp, hnext, -, -⟩ := hseg
    rw [hposp] at hpos
    rw [hlink]
    show h.findPrev b (0 + k + 1) p = some p
    rw [MallocHeap.findPrev, if_neg (Nat.pos_iff_ne_zero.mp hpos), if_pos hnext]
  | cons a l ih =>
    obtain ⟨k, rfl⟩ := Nat.exists_eq_add_of_lt hn
    obtain ⟨hlink, hposa, hrest⟩ := hseg
    rw [hposa] at hpos
    rw [hlink]
    have hne : (h.mem a).next ≠ b := by
      intro heq
      have hb : b ∉ l ++ [p] := by
        have hlist : l ++ p :: b :: m = (l ++ [p]) ++ b :: m := by simp
        have hseg : Seg HDR (fun a => (h.mem a).size) (fun a => (h.mem a).next) (a + HDR + (h.mem a).size)
            (h.mem a).next ((l ++ [p]) ++ b :: m) stop 0 := by
          rw [← hlist]
          exact hrest
        exact (hseg.not_mem_sides hdr_pos).1
      cases l with
      | nil =>
        have hp : (h.mem a).next = p := hrest.1
        rw [heq] at hp
        exact hb (by simp [hp])
      | cons c l =>
        have hc : (h.mem a).next = c := hrest.1
        rw [heq] at hc
        exact hb (by simp [hc])
    show h.findPrev b ((a :: l).length + k + 1) a = some p
    rw [MallocHeap.findPrev, if_neg (Nat.pos_iff_ne_zero.mp hpos), if_neg hne]
    exact ih hrest (by omega) (by rw [List.length_cons]; omega)

/-! ### `malloc` -/

/-- The list is in order, except that the free block `b` may have free neighbours. -/
structure Loose (ar : Arena) (mem : ℕ → BlockT) (l₁ : List ℕ) (b : ℕ) (l₂ : List ℕ) : Prop where
  laid : Laid mem ar.base (l₁ ++ b :: l₂) (ar.base + HEAP_SIZE)
  sizes : ∀ a ∈ l₁ ++ b :: l₂, 16 ∣ (mem a).size
  left : Settled mem l₁
  right : Settled mem l₂
  free : (mem b).free = true

theorem Tiled.loose (ht : Tiled ar mem (l₁ ++ b :: l₂)) (hfree : (mem b).free = true) : Loose ar mem l₁ b l₂ := by
  have hsettled := List.isChain_append.mp ht.settled
  exact ⟨ht.laid, ht.sizes, hsettled.1, (settled_cons.mp hsettled.2.1).2, hfree⟩

/-- What a call that hands out the block `b` does to the list. -/
structure HandedOut (ar : Arena) (h : MallocHeap) (l : List ℕ) (b want : ℕ) (h' : MallocHeap) (l' : List ℕ) : Prop where
  tiled : Tiled ar h'.mem l'
  first : h'.gFirst = h.gFirst
  mem : b ∈ l'
  fresh : ¬Taken h.mem l (b + HDR)
  taken : ∀ q, Taken h'.mem l' q ↔ Taken h.mem l q ∨ q = b + HDR
  kept : ∀ a ∈ l, (h.mem a).free = false → a ∈ l' ∧ h'.mem a = h.mem a
  size : want ≤ (h'.mem b).size

theorem not_taken_of_free (hb : (mem b).free = true) : ¬Taken mem l (b + HDR) := by
  intro ⟨a, _, hfree, hp⟩
  have hab : a = b := by omega
  rw [hab, hb] at hfree
  cases hfree

/-- Handing out a whole block. -/
theorem Loose.take (ht : Loose ar h.mem l₁ b l₂) (hwant : want ≤ (h.mem b).size) :
    HandedOut ar h (l₁ ++ b :: l₂) b want (h.take b) (l₁ ++ b :: l₂) := by
  have hself : (h.take b).mem b = { h.mem b with free := false } := Function.update_self ..
  have hother : ∀ a, a ≠ b → (h.take b).mem a = h.mem a := fun a ha => Function.update_of_ne ha ..
  obtain ⟨hl, hm⟩ := ht.laid.not_mem_sides hdr_pos
  have hsize : ∀ a, ((h.take b).mem a).size = (h.mem a).size ∧ ((h.take b).mem a).next = (h.mem a).next := by
    intro a
    by_cases hab : a = b
    · rw [hab, hself]
      exact ⟨rfl, rfl⟩
    · rw [hother a hab]
      exact ⟨rfl, rfl⟩
  have htaken : ((h.take b).mem b).free = false := by
    rw [hself]
  have hfree := ht.free
  refine ⟨⟨ht.laid.congr (fun a _ => (hsize a).1) fun a _ => (hsize a).2, fun a ha => ?_, ?_⟩, rfl, by simp,
    not_taken_of_free hfree, fun q => ?_, fun a ha hafree => ⟨ha, hother a fun hab => ?_⟩, ?_⟩
  · rw [(hsize a).1]
    exact ht.sizes a ha
  · rw [settled_taken htaken]
    constructor
    · refine Settled.congr ht.left fun a ha => ?_
      rw [hother a fun hab => hl (hab ▸ ha)]
    · refine Settled.congr ht.right fun a ha => ?_
      rw [hother a fun hab => hm (hab ▸ ha)]
  · constructor
    · intro ⟨a, ha, hafree, hq⟩
      by_cases hab : a = b
      · right
        rw [hq, hab]
      · rw [hother a hab] at hafree
        exact .inl ⟨a, ha, hafree, hq⟩
    · rintro (⟨a, ha, hafree, hq⟩ | hq)
      · have hab : a ≠ b := by
          intro hab
          rw [hab, hfree] at hafree
          cases hafree
        rw [← hother a hab] at hafree
        exact ⟨a, ha, hafree, hq⟩
      · exact ⟨b, by simp, htaken, hq⟩
  · rw [hab, hfree] at hafree
    cases hafree
  · rw [(hsize b).1]
    exact hwant

/-- Cutting the rest off a free block leaves two free ones. -/
theorem split_laid (ht : Tiled ar h.mem (l₁ ++ b :: l₂)) (hwant : want + HDR + 16 ≤ (h.mem b).size)
    (hfree : (h.mem b).free = true) :
    let h' := h.split b want
    Laid h'.mem ar.base (l₁ ++ b :: (b + HDR + want) :: l₂) (ar.base + HEAP_SIZE) ∧
      (∀ a ∈ l₁ ++ l₂, h'.mem a = h.mem a) ∧ h'.mem b = ⟨want, b + HDR + want, true⟩ ∧
      h'.mem (b + HDR + want) = ⟨(h.mem b).size - want - HDR, (h.mem b).next, true⟩ := by
  intro h'
  have hin := ht.inside (b := b) (by simp)
  have hbound : HEAP_SIZE + HDR + 16 < 2 ^ 64 := by decide
  have hguard : (want + HDR + 16) % 2 ^ 64 ≤ (h.mem b).size := (Nat.mod_le _ _).trans hwant
  have heq : h' = (h.setBlock (b + HDR + want) ⟨(h.mem b).size - want - HDR, (h.mem b).next, true⟩).setBlock b
      ⟨want, b + HDR + want, (h.mem b).free⟩ := if_pos hguard
  have hpos := hdr_pos
  have hself : h'.mem b = ⟨want, b + HDR + want, true⟩ := by
    rw [heq, hfree]
    exact Function.update_self ..
  have hnew : h'.mem (b + HDR + want) = ⟨(h.mem b).size - want - HDR, (h.mem b).next, true⟩ := by
    rw [heq]
    show Function.update _ b _ (b + HDR + want) = _
    rw [Function.update_of_ne (by omega)]
    exact Function.update_self ..
  obtain ⟨hleft, hright⟩ := Seg.middle_iff.mp ht.laid
  -- the cut is inside the block, so it is no other block
  have hapart : ∀ a ∈ l₁ ++ l₂, a ≠ b ∧ a ≠ b + HDR + want := by
    intro a ha
    rcases List.mem_append.mp ha with ha | ha
    · have := (hleft.inside ha).2
      constructor
      · omega
      · omega
    · have := (hright.inside ha).1
      constructor
      · omega
      · omega
  have hother : ∀ a ∈ l₁ ++ l₂, h'.mem a = h.mem a := by
    intro a ha
    obtain ⟨hab, hanb⟩ := hapart a ha
    rw [heq]
    show Function.update _ b _ a = _
    rw [Function.update_of_ne hab]
    exact Function.update_of_ne hanb ..
  refine ⟨Seg.middle_iff.mpr ⟨?_, ?_, ?_, ?_⟩, hother, hself, hnew⟩
  · refine hleft.congr (fun a ha => ?_) fun a ha => ?_
    · rw [hother a (List.mem_append_left _ ha)]
    · rw [hother a (List.mem_append_left _ ha)]
  · show (h'.mem b).next = _
    rw [hself]
  · show b + HDR + (h'.mem b).size = _
    rw [hself]
  · have hstart : b + HDR + want + HDR + (h'.mem (b + HDR + want)).size = b + HDR + (h.mem b).size := by
      rw [hnew]
      show b + HDR + want + HDR + ((h.mem b).size - want - HDR) = _
      omega
    show Seg _ _ _ (b + HDR + want + HDR + (h'.mem (b + HDR + want)).size) (h'.mem (b + HDR + want)).next l₂ _ 0
    rw [hstart, hnew]
    refine hright.congr (fun a ha => ?_) fun a ha => ?_
    · rw [hother a (List.mem_append_right _ ha)]
    · rw [hother a (List.mem_append_right _ ha)]

/-- Cutting the rest off a free block and handing out the front. -/
theorem handedOut_split (ht : Tiled ar h.mem (l₁ ++ b :: l₂)) (hwant : want + HDR + 16 ≤ (h.mem b).size)
    (hfree : (h.mem b).free = true) (hdvd : 16 ∣ want) :
    HandedOut ar h (l₁ ++ b :: l₂) b want ((h.split b want).take b) (l₁ ++ b :: (b + HDR + want) :: l₂) := by
  obtain ⟨hlaid, hother, hself, hnew⟩ := split_laid ht hwant hfree
  set h₁ := h.split b want with hh₁
  set nb := b + HDR + want with hnb
  have hsettled := List.isChain_append.mp ht.settled
  obtain ⟨hhead, htail⟩ := settled_cons.mp hsettled.2.1
  have hloose : Loose ar h₁.mem l₁ b (nb :: l₂) := by
    refine ⟨hlaid, fun a ha => ?_, Settled.congr hsettled.1 fun a ha => ?_, settled_cons.mpr ⟨fun y hy => ?_, ?_⟩, ?_⟩
    · rw [List.mem_append, List.mem_cons, List.mem_cons] at ha
      rcases ha with ha | rfl | rfl | ha
      · rw [hother a (List.mem_append_left _ ha)]
        exact ht.sizes a (List.mem_append_left _ ha)
      · rw [hself]
        exact hdvd
      · rw [hnew]
        have hb := ht.sizes b (by simp)
        have hhdr : 16 ∣ HDR := by decide
        exact Nat.dvd_sub (Nat.dvd_sub hb hdvd) hhdr
      · rw [hother a (List.mem_append_right _ ha)]
        exact ht.sizes a (by simp [ha])
    · rw [hother a (List.mem_append_left _ ha)]
    · have hmem : y ∈ l₂ := List.mem_of_mem_head? hy
      rw [hother y (List.mem_append_right _ hmem)]
      exact fun hboth => hhead y hy ⟨hfree, hboth.2⟩
    · refine Settled.congr htail fun a ha => ?_
      rw [hother a (List.mem_append_right _ ha)]
    · rw [hself]
  have hroom : want ≤ (h₁.mem b).size := by rw [hself]
  have hout := hloose.take hroom
  -- both halves are free, so the cut itself takes nothing and gives nothing up
  have hsame : ∀ q, Taken h₁.mem (l₁ ++ b :: nb :: l₂) q ↔ Taken h.mem (l₁ ++ b :: l₂) q := by
    intro q
    constructor
    · intro ⟨a, ha, hafree, hq⟩
      rw [List.mem_append, List.mem_cons, List.mem_cons] at ha
      rcases ha with ha | rfl | rfl | ha
      · rw [hother a (List.mem_append_left _ ha)] at hafree
        exact ⟨a, List.mem_append_left _ ha, hafree, hq⟩
      · rw [hself] at hafree
        cases hafree
      · rw [hnew] at hafree
        cases hafree
      · rw [hother a (List.mem_append_right _ ha)] at hafree
        exact ⟨a, by simp [ha], hafree, hq⟩
    · intro ⟨a, ha, hafree, hq⟩
      rw [List.mem_append, List.mem_cons] at ha
      rcases ha with ha | rfl | ha
      · rw [← hother a (List.mem_append_left _ ha)] at hafree
        exact ⟨a, List.mem_append_left _ ha, hafree, hq⟩
      · rw [hfree] at hafree
        cases hafree
      · rw [← hother a (List.mem_append_right _ ha)] at hafree
        exact ⟨a, by simp [ha], hafree, hq⟩
  have hkept : ∀ a ∈ l₁ ++ b :: l₂, (h.mem a).free = false → a ∈ l₁ ++ l₂ := by
    intro a ha hafree
    rw [List.mem_append, List.mem_cons] at ha
    rcases ha with ha | rfl | ha
    · exact List.mem_append_left _ ha
    · rw [hfree] at hafree
      cases hafree
    · exact List.mem_append_right _ ha
  have hfirst : h₁.gFirst = h.gFirst := by
    rw [hh₁, MallocHeap.split]
    split
    · rfl
    · rfl
  refine ⟨hout.tiled, hout.first.trans hfirst, hout.mem, not_taken_of_free hfree, fun q => ?_, fun a ha hafree => ?_,
    hout.size⟩
  · rw [hout.taken q, hsame q]
  · have hmem := hkept a ha hafree
    have heq := hother a hmem
    have hmem₁ : a ∈ l₁ ++ b :: nb :: l₂ := by
      rw [List.mem_append] at hmem
      rw [List.mem_append, List.mem_cons, List.mem_cons]
      tauto
    obtain ⟨h1, h2⟩ := hout.kept a hmem₁ (by rw [heq]; exact hafree)
    exact ⟨h1, h2.trans heq⟩

theorem align16_dvd (n : ℕ) : 16 ∣ align16 n := Nat.dvd_mul_left 16 _

/-- **`malloc`** returns, with null or with a block that was free and is large enough. -/
theorem malloc_spec (ht : Tiled ar h.mem l) (hfirst : h.gFirst = ar.base) (want : ℕ) :
    h.malloc ar want = some (0, h) ∨
    ∃ b h' l', h.malloc ar want = some (b + HDR, h') ∧
      HandedOut ar h l b (align16 (if want = 0 then 1 else want)) h' l' := by
  set w := align16 (if want = 0 then 1 else want) with hw
  have hne : h.gFirst ≠ 0 := by
    have hpos := ar.pos
    omega
  obtain ⟨b, hfind, hcases⟩ := findFit_spec w ht.laid ar.pos ht.length_lt
  have hmalloc : h.malloc ar want = if b = 0 then some (0, h) else some (b + HDR, (h.split b w).take b) := by
    rw [MallocHeap.malloc]
    simp only [if_neg hne, ← hw]
    rw [hfirst, hfind]
  rw [hmalloc]
  rcases hcases with hzero | ⟨hmem, hfree, hsize⟩
  · left
    rw [if_pos hzero]
  · right
    have hin := ht.inside hmem
    rw [if_neg (by omega)]
    obtain ⟨l₁, l₂, rfl⟩ := List.append_of_mem hmem
    by_cases hcut : (w + HDR + 16) % 2 ^ 64 ≤ (h.mem b).size
    · have hbound : HEAP_SIZE + HDR + 16 < 2 ^ 64 := by decide
      rw [Nat.mod_eq_of_lt (by omega)] at hcut
      exact ⟨b, _, _, rfl, handedOut_split ht hcut hfree (align16_dvd _)⟩
    · have hwhole : h.split b w = h := if_neg hcut
      rw [hwhole]
      exact ⟨b, _, _, rfl, (ht.loose hfree).take hsize⟩

/-! ### `free` -/

/-- Joining a block with the following one. -/
theorem join_laid (hlaid : Laid h.mem ar.base (l₁ ++ b :: c :: l₂) (ar.base + HEAP_SIZE))
    (hsizes : ∀ a ∈ l₁ ++ b :: c :: l₂, 16 ∣ (h.mem a).size) :
    let h' := h.join b c
    Laid h'.mem ar.base (l₁ ++ b :: l₂) (ar.base + HEAP_SIZE) ∧ (∀ a ∈ l₁ ++ b :: l₂, 16 ∣ (h'.mem a).size) ∧
      (∀ a, a ≠ b → h'.mem a = h.mem a) ∧ (h'.mem b).free = (h.mem b).free ∧ (h'.mem b).next = (h.mem c).next := by
  intro h'
  have hother : ∀ a, a ≠ b → h'.mem a = h.mem a := fun a ha => Function.update_of_ne ha ..
  have hself : h'.mem b = ⟨((h.mem b).size + (HDR + (h.mem c).size)) % 2 ^ 64, (h.mem c).next, (h.mem b).free⟩ :=
    Function.update_self ..
  obtain ⟨hl, hm⟩ := hlaid.not_mem_sides hdr_pos
  have hm₂ : b ∉ l₂ := fun hb => hm (List.mem_cons_of_mem _ hb)
  obtain ⟨hleft, -, hstart, hright⟩ := Seg.middle_iff.mp hlaid
  simp only at hstart hright
  have hbound : HEAP_SIZE < 2 ^ 64 := by decide
  have hroom := hright.length_le
  have hsize : (h'.mem b).size = (h.mem b).size + (HDR + (h.mem c).size) := by
    have hle : ar.base ≤ b := (hlaid.inside (b := b) (by simp)).1
    rw [hself]
    show ((h.mem b).size + (HDR + (h.mem c).size)) % 2 ^ 64 = _
    rw [Nat.mod_eq_of_lt (by omega)]
  refine ⟨Seg.middle_iff.mpr ⟨?_, ?_⟩, fun a ha => ?_, hother, by rw [hself], by rw [hself]⟩
  · refine hleft.congr (fun a ha => ?_) fun a ha => ?_
    · rw [hother a fun hab => hl (hab ▸ ha)]
    · rw [hother a fun hab => hl (hab ▸ ha)]
  · have hpos : b + HDR + (h'.mem b).size = c + HDR + (h.mem c).size := by
      rw [hsize]
      omega
    have hnext : (h'.mem b).next = (h.mem c).next := by rw [hself]
    show Seg _ _ _ (b + HDR + (h'.mem b).size) (h'.mem b).next l₂ _ 0
    rw [hpos, hnext]
    refine hright.congr (fun a ha => ?_) fun a ha => ?_
    · rw [hother a fun hab => hm₂ (hab ▸ ha)]
    · rw [hother a fun hab => hm₂ (hab ▸ ha)]
  · by_cases hab : a = b
    · rw [hab, hsize]
      have hhdr : 16 ∣ HDR := by decide
      exact Nat.dvd_add (hsizes b (by simp)) (Nat.dvd_add hhdr (hsizes c (by simp)))
    · rw [hother a hab]
      apply hsizes a
      rw [List.mem_append, List.mem_cons] at ha
      rw [List.mem_append, List.mem_cons, List.mem_cons]
      tauto

/-- Joining two free blocks changes nothing for the pointers. -/
theorem taken_join (hb : (mem b).free = true) (hc : (mem c).free = true) (hother : ∀ a, a ≠ b → mem' a = mem a)
    (hself : (mem' b).free = (mem b).free) (q : ℕ) :
    Taken mem' (l₁ ++ b :: l₂) q ↔ Taken mem (l₁ ++ b :: c :: l₂) q := by
  constructor
  · intro ⟨a, ha, hafree, hq⟩
    have hab : a ≠ b := by
      intro hab
      rw [hab, hself, hb] at hafree
      cases hafree
    rw [hother a hab] at hafree
    refine ⟨a, ?_, hafree, hq⟩
    rw [List.mem_append, List.mem_cons] at ha
    rw [List.mem_append, List.mem_cons, List.mem_cons]
    tauto
  · intro ⟨a, ha, hafree, hq⟩
    have hab : a ≠ b := by
      intro hab
      rw [hab, hb] at hafree
      cases hafree
    have hac : a ≠ c := by
      intro hac
      rw [hac, hc] at hafree
      cases hafree
    rw [← hother a hab] at hafree
    refine ⟨a, ?_, hafree, hq⟩
    rw [List.mem_append, List.mem_cons, List.mem_cons] at ha
    rw [List.mem_append, List.mem_cons]
    tauto

/-- Joining keeps a loose list. -/
theorem Loose.join (hs : Loose ar h.mem l₁ b (c :: l₂)) : Loose ar (h.join b c).mem l₁ b l₂ := by
  obtain ⟨hlaid, hsizes, hother, hfree, -⟩ := join_laid hs.laid hs.sizes
  obtain ⟨hl, hm⟩ := hs.laid.not_mem_sides hdr_pos
  refine ⟨hlaid, hsizes, Settled.congr hs.left fun a ha => ?_, Settled.congr (settled_cons.mp hs.right).2 fun a ha => ?_,
    hfree.trans hs.free⟩
  · rw [hother a fun hab => hl (hab ▸ ha)]
  · rw [hother a fun hab => hm (hab ▸ List.mem_cons_of_mem _ ha)]

/-- The loop that joins the following blocks ends after one round at most, and writes one header. -/
theorem coalesceForward_spec (hs : Loose ar h.mem l₁ b l₂) (n : ℕ) :
    ∃ h' l', MallocHeap.coalesceForward b (n + 2) h = some h' ∧ h'.gFirst = h.gFirst ∧ Loose ar h'.mem l₁ b l' ∧
      (∀ y ∈ l'.head?, (h'.mem y).free = false) ∧
      (∀ q, Taken h'.mem (l₁ ++ b :: l') q ↔ Taken h.mem (l₁ ++ b :: l₂) q) ∧ (∀ a, a ≠ b → h'.mem a = h.mem a) ∧
      l' ⊆ l₂ := by
  obtain ⟨-, hrest⟩ := Seg.middle_iff.mp hs.laid
  have hbase := ar.pos
  have hb : ar.base ≤ b := (hs.laid.inside (b := b) (by simp)).1
  cases l₂ with
  | nil =>
    have hnext : (h.mem b).next = 0 := hrest.2.symm
    refine ⟨h, [], ?_, rfl, hs, by simp, fun q => Iff.rfl, fun a _ => rfl, List.Subset.refl _⟩
    rw [MallocHeap.coalesceForward, if_neg (fun hboth => hboth.1 hnext)]
  | cons c l₂ =>
    obtain ⟨hnext, hstart, hright⟩ := hrest
    simp only at hnext hstart hright
    have hc : c ≠ 0 := by omega
    by_cases hcfree : (h.mem c).free = true
    · obtain ⟨hhead, -⟩ := settled_cons.mp hs.right
      obtain ⟨-, -, hother, hself, hnext'⟩ := join_laid hs.laid hs.sizes
      have hm : b ∉ c :: l₂ := (hs.laid.not_mem_sides hdr_pos).2
      have hstop : ∀ y ∈ l₂.head?, ((h.join b c).mem y).free = false := by
        intro y hy
        have hmem : y ∈ l₂ := List.mem_of_mem_head? hy
        rw [hother y fun hyb => hm (hyb ▸ List.mem_cons_of_mem _ hmem)]
        by_contra hyfree
        exact hhead y hy ⟨hcfree, by simpa using hyfree⟩
      refine ⟨h.join b c, l₂, ?_, rfl, hs.join, hstop, fun q => taken_join hs.free hcfree hother hself q, hother,
        List.subset_cons_self _ _⟩
      rw [MallocHeap.coalesceForward, hnext, if_pos ⟨hc, hcfree⟩, MallocHeap.coalesceForward]
      -- the block after the one that was joined is not free
      refine if_neg fun hboth => ?_
      rw [hnext'] at hboth
      cases l₂ with
      | nil => exact hboth.1 hright.2.symm
      | cons d l₂ =>
        have hd : (h.mem c).next = d := hright.1
        rw [hd, hstop d rfl] at hboth
        cases hboth.2
    · refine ⟨h, c :: l₂, ?_, rfl, hs, fun y hy => ?_, fun q => Iff.rfl, fun a _ => rfl, List.Subset.refl _⟩
      · rw [MallocHeap.coalesceForward, hnext, if_neg (fun hboth => hcfree hboth.2)]
      · rw [List.head?_cons, Option.mem_some] at hy
        rw [← hy]
        simpa using hcfree

/-- The block in front is joined if it is free; then the list is in order, and the headers of taken blocks are what
they were. -/
theorem coalesceBackward_spec (hs : Loose ar h.mem l₁ b l₂) (hfirst : h.gFirst = ar.base)
    (hhead : ∀ y ∈ l₂.head?, (h.mem y).free = false) :
    ∃ h' l', h.coalesceBackward b = some h' ∧ h'.gFirst = ar.base ∧ Tiled ar h'.mem l' ∧
      (∀ q, Taken h'.mem l' q ↔ Taken h.mem (l₁ ++ b :: l₂) q) ∧
      (∀ a, (h.mem a).free = false → h'.mem a = h.mem a) ∧ l' ⊆ l₁ ++ b :: l₂ := by
  have hright : Settled h.mem (b :: l₂) := by
    refine settled_cons.mpr ⟨fun y hy hboth => ?_, hs.right⟩
    rw [hhead y hy] at hboth
    cases hboth.2
  rw [MallocHeap.coalesceBackward, hfirst]
  rcases List.eq_nil_or_concat l₁ with rfl | ⟨l₁, p, rfl⟩
  · have hbase : ar.base = b := hs.laid.1
    rw [if_pos hbase.symm]
    exact ⟨h, b :: l₂, rfl, hfirst, ⟨hs.laid, hs.sizes, hright⟩, fun q => Iff.rfl, fun a _ => rfl, List.Subset.refl _⟩
  · rw [List.concat_eq_append] at hs
    have hlist : (l₁ ++ [p]) ++ b :: l₂ = l₁ ++ p :: b :: l₂ := by simp
    have hlaid := hs.laid
    have hsizes := hs.sizes
    rw [hlist] at hlaid hsizes
    have hp := hlaid.inside (b := p) (by simp)
    obtain ⟨-, hnext, hstart, -⟩ := Seg.middle_iff.mp hlaid
    have hpos := hdr_pos
    have hbase := ar.pos
    have hlen : l₁.length < WALK := by
      have hlen := hlaid.length_le
      rw [List.length_append, List.length_cons] at hlen
      have hle : l₁.length * HDR ≤ HEAP_SIZE := by
        rw [Nat.add_mul] at hlen
        omega
      exact Nat.lt_succ_of_le ((Nat.le_div_iff_mul_le hpos).mpr hle)
    rw [if_neg (by omega), findPrev_spec hlaid hbase hlen]
    have hpne : p ≠ 0 := by omega
    simp only []
    rw [List.concat_eq_append, hlist]
    by_cases hpfree : (h.mem p).free = true
    · rw [if_pos ⟨hpne, hpfree⟩]
      obtain ⟨hlaid', hsizes', hother, hself, -⟩ := join_laid hlaid hsizes
      obtain ⟨hl, hm⟩ := hlaid.not_mem_sides hdr_pos
      refine ⟨h.join p b, l₁ ++ p :: l₂, rfl, hfirst, ⟨hlaid', hsizes', ?_⟩,
        fun q => taken_join hpfree hs.free hother hself q, fun a ha => hother a fun hap => ?_, fun a ha => ?_⟩
      rotate_left
      · rw [hap, hpfree] at ha
        cases ha
      · rw [List.mem_append, List.mem_cons] at ha
        rw [List.mem_append, List.mem_cons, List.mem_cons]
        tauto
      rw [Settled, List.isChain_split]
      constructor
      · refine Settled.congr hs.left fun a ha => ?_
        by_cases hap : a = p
        · rw [hap, hself]
        · rw [hother a hap]
      · refine settled_cons.mpr ⟨fun y hy hboth => ?_, Settled.congr hs.right fun a ha => ?_⟩
        · have hmem : y ∈ l₂ := List.mem_of_mem_head? hy
          rw [hother y fun hyp => hm (hyp ▸ List.mem_cons_of_mem _ hmem), hhead y hy] at hboth
          cases hboth.2
        · rw [hother a fun hap => hm (hap ▸ List.mem_cons_of_mem _ ha)]
    · rw [if_neg fun hboth => hpfree hboth.2]
      have hptaken : (h.mem p).free = false := by simpa using hpfree
      refine ⟨h, l₁ ++ p :: b :: l₂, rfl, hfirst, ⟨hlaid, hsizes, ?_⟩, fun q => Iff.rfl, fun a _ => rfl, List.Subset.refl _⟩
      rw [settled_taken hptaken]
      exact ⟨(List.isChain_append.mp hs.left).1, hright⟩

/-- **`free`** of a taken block returns, and gives up that block and no other; the other taken blocks keep their
headers. -/
theorem free_spec (ht : Tiled ar h.mem l) (hfirst : h.gFirst = ar.base) (hp : Taken h.mem l p) :
    ∃ h' l', h.free p = some h' ∧ h'.gFirst = ar.base ∧ Tiled ar h'.mem l' ∧
      (∀ q, Taken h'.mem l' q ↔ Taken h.mem l q ∧ q ≠ p) ∧
      (∀ a, a + HDR ≠ p → (h.mem a).free = false → h'.mem a = h.mem a) ∧ l' ⊆ l := by
  obtain ⟨b, hmem, hbfree, rfl⟩ := hp
  obtain ⟨l₁, l₂, rfl⟩ := List.append_of_mem hmem
  set h₁ := h.setBlock b { h.mem b with free := true } with hh₁
  have hself : h₁.mem b = { h.mem b with free := true } := Function.update_self ..
  have hother : ∀ a, a ≠ b → h₁.mem a = h.mem a := fun a ha => Function.update_of_ne ha ..
  obtain ⟨hl, hm⟩ := ht.laid.not_mem_sides hdr_pos
  have hsize : ∀ a, (h₁.mem a).size = (h.mem a).size ∧ (h₁.mem a).next = (h.mem a).next := by
    intro a
    by_cases hab : a = b
    · rw [hab, hself]
      exact ⟨rfl, rfl⟩
    · rw [hother a hab]
      exact ⟨rfl, rfl⟩
  obtain ⟨hleft, hright⟩ := (settled_taken hbfree).mp ht.settled
  have hloose : Loose ar h₁.mem l₁ b l₂ := by
    refine ⟨ht.laid.congr (fun a _ => (hsize a).1) fun a _ => (hsize a).2, fun a ha => ?_,
      Settled.congr hleft fun a ha => ?_, Settled.congr hright fun a ha => ?_, by rw [hself]⟩
    · rw [(hsize a).1]
      exact ht.sizes a ha
    · rw [hother a fun hab => hl (hab ▸ ha)]
    · rw [hother a fun hab => hm (hab ▸ ha)]
  have hgone : ∀ q, Taken h₁.mem (l₁ ++ b :: l₂) q ↔ Taken h.mem (l₁ ++ b :: l₂) q ∧ q ≠ b + HDR := by
    intro q
    constructor
    · intro ⟨a, ha, hafree, hq⟩
      have hab : a ≠ b := by
        intro hab
        rw [hab, hself] at hafree
        cases hafree
      rw [hother a hab] at hafree
      exact ⟨⟨a, ha, hafree, hq⟩, by omega⟩
    · intro ⟨⟨a, ha, hafree, hq⟩, hne⟩
      rw [← hother a (by omega)] at hafree
      exact ⟨a, ha, hafree, hq⟩
  obtain ⟨h₂, l₂', hforward, hfirst₂, hloose₂, hhead, hsame₂, hkept₂, hsub₂⟩ := coalesceForward_spec hloose (WALK - 2)
  obtain ⟨h₃, l₃, hback, hfirst₃, ht₃, hsame₃, hkept₃, hsub₃⟩ := coalesceBackward_spec hloose₂ (hfirst₂.trans hfirst) hhead
  refine ⟨h₃, l₃, ?_, hfirst₃, ht₃, fun q => ?_, fun a hne hafree => ?_, fun a ha => ?_⟩
  · have hwalk : WALK - 2 + 2 = WALK := by decide
    have hblock : MallocHeap.blockOf (b + HDR) = b := Nat.add_sub_cancel ..
    have hpos := hdr_pos
    rw [hwalk] at hforward
    rw [MallocHeap.free, if_neg (by omega)]
    simp only [hblock]
    rw [← hh₁, hforward]
    exact hback
  · rw [hsame₃ q, hsame₂ q, hgone q]
  · have hab : a ≠ b := fun hab => hne (by rw [hab])
    have hafter : h₂.mem a = h.mem a := (hkept₂ a hab).trans (hother a hab)
    rw [hkept₃ a (by rw [hafter]; exact hafree), hafter]
  · have hmem := hsub₃ ha
    rw [List.mem_append, List.mem_cons] at hmem
    rw [List.mem_append, List.mem_cons]
    exact hmem.imp_right fun h => h.imp_right fun h => hsub₂ h

/-! ### Live pointers -/

/-- Two blocks are apart, with their headers. -/
theorem Tiled.apart (ht : Tiled ar mem l) (hb : b ∈ l) (hc : c ∈ l) (hne : b ≠ c) :
    RangesApart b (HDR + (mem b).size) c (HDR + (mem c).size) := by
  obtain ⟨l₁, l₂, rfl⟩ := List.append_of_mem hb
  obtain ⟨hleft, hright⟩ := Seg.middle_iff.mp ht.laid
  rw [List.mem_append, List.mem_cons] at hc
  rcases hc with hc | hc | hc
  · right
    have hle := (hleft.inside hc).2
    omega
  · exact absurd hc.symm hne
  · left
    have hle := (hright.inside hc).1
    omega

/-- The heap is set up, and the pointers of `live` are the taken payloads. -/
def Owns (ar : Arena) (h : MallocHeap) (live : List ℕ) : Prop :=
  h.gFirst = ar.base ∧ ∃ l, Tiled ar h.mem l ∧ live.Nodup ∧ ∀ p, p ∈ live ↔ Taken h.mem l p

variable {live : List ℕ} {n size : ℕ}

theorem Owns.ne_zero (ho : Owns ar h live) (hp : p ∈ live) : p ≠ 0 := by
  obtain ⟨-, l, -, -, hlive⟩ := ho
  obtain ⟨b, -, -, rfl⟩ := (hlive p).mp hp
  have hpos := hdr_pos
  omega

theorem Owns.malloc (ho : Owns ar h live) (want : ℕ) :
    ∃ p h', h.malloc ar want = some (p, h') ∧ Owns ar h' (MallocRun.answered live p) ∧
      (p ≠ 0 → align16 (if want = 0 then 1 else want) ≤ (h'.mem (MallocHeap.blockOf p)).size ∧
        ∀ q ∈ live, h'.mem (MallocHeap.blockOf q) = h.mem (MallocHeap.blockOf q)) := by
  obtain ⟨hfirst, l, ht, hnodup, hlive⟩ := ho
  rcases malloc_spec ht hfirst want with hnull | ⟨b, h', l', hsome, hout⟩
  · exact ⟨0, h, hnull, ⟨hfirst, l, ht, hnodup, hlive⟩, fun hne => absurd rfl hne⟩
  · have hpos := hdr_pos
    have hne : b + HDR ≠ 0 := by omega
    have hblock : ∀ a, MallocHeap.blockOf (a + HDR) = a := fun a => Nat.add_sub_cancel ..
    have hlive' : MallocRun.answered live (b + HDR) = (b + HDR) :: live := if_neg hne
    refine ⟨b + HDR, h', hsome, ⟨hout.first.trans hfirst, l', hout.tiled, ?_, fun q => ?_⟩, fun _ => ⟨?_, ?_⟩⟩
    · rw [hlive']
      exact List.nodup_cons.mpr ⟨fun hmem => hout.fresh ((hlive _).mp hmem), hnodup⟩
    · rw [hlive', List.mem_cons, hlive q, hout.taken q]
      exact Or.comm
    · rw [hblock]
      exact hout.size
    · intro q hq
      obtain ⟨a, ha, hafree, rfl⟩ := (hlive q).mp hq
      rw [hblock]
      exact (hout.kept a ha hafree).2

theorem Owns.free (ho : Owns ar h live) (hp : p ∈ live) :
    ∃ h', h.free p = some h' ∧ Owns ar h' (live.erase p) ∧
      ∀ q ∈ live, q ≠ p → h'.mem (MallocHeap.blockOf q) = h.mem (MallocHeap.blockOf q) := by
  obtain ⟨hfirst, l, ht, hnodup, hlive⟩ := ho
  obtain ⟨h', l', hfree, hfirst', ht', hgone, hkept, -⟩ := free_spec ht hfirst ((hlive p).mp hp)
  refine ⟨h', hfree, ⟨hfirst', l', ht', hnodup.erase p, fun q => ?_⟩, fun q hq hne => ?_⟩
  · rw [hnodup.mem_erase_iff, hgone q, hlive q]
    exact And.comm
  · obtain ⟨a, -, hafree, rfl⟩ := (hlive q).mp hq
    have hblock : MallocHeap.blockOf (a + HDR) = a := Nat.add_sub_cancel ..
    rw [hblock]
    exact hkept a hne hafree

/-- Writing inside the payload of a live pointer touches no header. -/
theorem Owns.overwrite (data : ℕ → BlockT) (ho : Owns ar h live) (hp : p ∈ live)
    (hn : n ≤ (h.mem (MallocHeap.blockOf p)).size) :
    ∃ h', h.overwrite p n data = some h' ∧ Owns ar h' live ∧
      ∀ q ∈ live, h'.mem (MallocHeap.blockOf q) = h.mem (MallocHeap.blockOf q) := by
  obtain ⟨hfirst, l, ht, hnodup, hlive⟩ := ho
  obtain ⟨b, hb, -, rfl⟩ := (hlive p).mp hp
  have hblock : MallocHeap.blockOf (b + HDR) = b := Nat.add_sub_cancel ..
  rw [hblock] at hn
  have hin := ht.inside hb
  have hfits := ar.fits
  have hrange : ¬USER_END < b + HDR + n := by omega
  have hmem : ∀ a ∈ l, ¬(a < b + HDR + n ∧ b + HDR < a + HDR) := by
    intro a ha ⟨h1, h2⟩
    by_cases hab : b = a
    · omega
    · rcases ht.apart hb ha hab with hle | hle
      · omega
      · omega
  refine ⟨_, if_neg hrange, ⟨hfirst, l, ?_, hnodup, fun q => ?_⟩, fun q hq => ?_⟩
  · exact ht.congr fun a ha => if_neg (hmem a ha)
  · rw [hlive q]
    exact (Taken.congr fun a ha => if_neg (hmem a ha)).symm
  · obtain ⟨a, ha, -, rfl⟩ := (hlive q).mp hq
    have hblock' : MallocHeap.blockOf (a + HDR) = a := Nat.add_sub_cancel ..
    rw [hblock']
    exact if_neg (hmem a ha)

/-! ### Runs -/

/-- What every run keeps: the heap is not set up yet, or it is in order. -/
def MallocRun.Inv (ar : Arena) (s : MallocRun) : Prop :=
  (s.heap.gFirst = 0 ∧ s.live = []) ∨ Owns ar s.heap s.live

/-- The first `malloc` sets the heap up. -/
theorem malloc_unset (hzero : h.gFirst = 0) (want : ℕ) : h.malloc ar want = (h.heapInit ar).malloc ar want := by
  have hbase : (h.heapInit ar).gFirst = ar.base := rfl
  have hne : ar.base ≠ 0 := Nat.pos_iff_ne_zero.mp ar.pos
  rw [MallocHeap.malloc, MallocHeap.malloc]
  simp only [if_pos hzero, hbase, if_neg hne]

theorem owns_heapInit (ar : Arena) (h : MallocHeap) : Owns ar (h.heapInit ar) [] := by
  refine ⟨rfl, [ar.base], tiled_heapInit ar h, List.nodup_nil, fun p => ⟨fun hp => absurd hp List.not_mem_nil, ?_⟩⟩
  intro ⟨b, hb, hfree, _⟩
  have hself : (h.heapInit ar).mem ar.base = ⟨HEAP_SIZE - HDR, 0, true⟩ := Function.update_self ..
  rw [List.mem_singleton.mp hb, hself] at hfree
  cases hfree

namespace MallocRun

variable {s s' : MallocRun}

/-- A `malloc` from any state of a run returns. -/
theorem Inv.malloc (hi : s.Inv ar) (want : ℕ) :
    ∃ p h', s.heap.malloc ar want = some (p, h') ∧ Owns ar h' (answered s.live p) ∧
      (p ≠ 0 → align16 (if want = 0 then 1 else want) ≤ (h'.mem (MallocHeap.blockOf p)).size) := by
  rcases hi with ⟨hzero, hlive⟩ | ho
  · rw [malloc_unset hzero, hlive]
    obtain ⟨p, h', hr, ho', hsize⟩ := (owns_heapInit ar s.heap).malloc want
    exact ⟨p, h', hr, ho', fun hne => (hsize hne).1⟩
  · obtain ⟨p, h', hr, ho', hsize⟩ := ho.malloc want
    exact ⟨p, h', hr, ho', fun hne => (hsize hne).1⟩

/-- A pointer that a program holds shows that the heap is set up. -/
theorem Inv.owns (hi : s.Inv ar) (hp : p ∈ s.live) : Owns ar s.heap s.live := by
  rcases hi with ⟨-, hlive⟩ | ho
  · rw [hlive] at hp
    cases hp
  · exact ho

theorem mem_answered (live : List ℕ) (hne : p ≠ 0) : p ∈ answered live p := by
  rw [answered, if_neg hne]
  exact List.mem_cons_self

/-- A request that does not wrap is rounded up. -/
theorem le_align16 (hn : n + 15 < 2 ^ 64) : n ≤ align16 (if n = 0 then 1 else n) := by
  rw [align16]
  split
  · omega
  · rw [Nat.mod_eq_of_lt hn]
    omega

/-- A `calloc` returns, unless its size is so large that it wraps when it is rounded up. -/
theorem Inv.calloc (hi : s.Inv ar) (n size : ℕ) :
    (∃ p h', s.heap.calloc ar n size = some (p, h') ∧ Inv ar ⟨h', answered s.live p⟩) ∨
      (2 ^ 64 ≤ n * size % 2 ^ 64 + 15 ∧ s.heap.calloc ar n size = none) := by
  rw [MallocHeap.calloc]
  split
  · exact .inl ⟨0, s.heap, rfl, hi⟩
  · obtain ⟨p, h', hr, ho, hsize⟩ := hi.malloc (n * size % 2 ^ 64)
    rw [hr]
    simp only []
    by_cases hp : p = 0
    · rw [if_pos hp]
      rw [hp] at ho
      exact .inl ⟨0, h', rfl, .inr ho⟩
    · rw [if_neg hp]
      by_cases hwrap : n * size % 2 ^ 64 + 15 < 2 ^ 64
      · obtain ⟨h'', hover, ho', -⟩ := ho.overwrite (fun _ => ⟨0, 0, false⟩) (mem_answered s.live hp)
          ((le_align16 hwrap).trans (hsize hp))
        rw [hover]
        exact .inl ⟨p, h'', rfl, .inr ho'⟩
      · -- the range goes round the whole address space
        right
        have hbig : USER_END < p + n * size % 2 ^ 64 := by
          rw [USER_END]
          omega
        rw [MallocHeap.overwrite, if_pos hbig]
        exact ⟨by omega, rfl⟩

/-- A `realloc` of null or of a live pointer returns, with a block of the size it has rounded up. -/
theorem Inv.realloc (hi : s.Inv ar) {ptr : ℕ} (data : ℕ → BlockT) (hptr : ptr = 0 ∨ ptr ∈ s.live) (size : ℕ) :
    ∃ p h', s.heap.realloc ar ptr size data = some (p, h') ∧
      Inv ar ⟨h', if size ≠ 0 ∧ p = 0 then s.live else answered (s.live.erase ptr) p⟩ ∧
      (size ≠ 0 → p ≠ 0 → align16 size ≤ (h'.mem (MallocHeap.blockOf p)).size) := by
  rw [MallocHeap.realloc]
  by_cases hnull : ptr = 0
  · rw [if_pos hnull]
    obtain ⟨p, h', hr, ho, hroom⟩ := hi.malloc size
    refine ⟨p, h', hr, .inr ?_, fun hne hp => by simpa only [if_neg hne] using hroom hp⟩
    have hzero : (0 : ℕ) ∉ s.live := fun hmem => (hi.owns hmem).ne_zero hmem rfl
    show Owns ar h' (if size ≠ 0 ∧ p = 0 then s.live else answered (s.live.erase ptr) p)
    rw [hnull, List.erase_of_not_mem hzero]
    split
    · rename_i hboth
      rw [hboth.2] at ho
      exact ho
    · exact ho
  · have hmem := hptr.resolve_left hnull
    have ho := hi.owns hmem
    rw [if_neg hnull]
    by_cases hsize : size = 0
    · rw [if_pos hsize]
      obtain ⟨h', hfree, ho', -⟩ := ho.free hmem
      rw [hfree]
      refine ⟨0, h', rfl, .inr ?_, fun hne _ => absurd hsize hne⟩
      rw [if_neg fun hboth => hboth.1 hsize]
      exact ho'
    · rw [if_neg hsize]
      split
      · rename_i hfits
        refine ⟨ptr, s.heap, rfl, .inr ?_, fun _ _ => hfits⟩
        obtain ⟨hfirst, l, ht, hnodup, hlive⟩ := ho
        rw [if_neg fun hboth => hnull hboth.2, answered, if_neg hnull]
        have hperm := List.perm_cons_erase hmem
        exact ⟨hfirst, l, ht, hperm.nodup_iff.mp hnodup, fun q => (hperm.mem_iff.symm).trans (hlive q)⟩
      · rename_i hsmall
        obtain ⟨p, h', hr, ho', hkept⟩ := ho.malloc size
        rw [hr]
        simp only []
        by_cases hp : p = 0
        · rw [if_pos hp]
          refine ⟨0, h', rfl, .inr ?_, fun _ hne => absurd rfl hne⟩
          rw [hp] at ho'
          rw [if_pos ⟨hsize, rfl⟩]
          exact ho'
        · rw [if_neg hp]
          obtain ⟨hroom, hsame⟩ := hkept hp
          rw [if_neg hsize] at hroom
          -- the old payload is smaller than the new one
          have hfit : (h'.mem (MallocHeap.blockOf ptr)).size ≤ (h'.mem (MallocHeap.blockOf p)).size := by
            rw [hsame ptr hmem]
            omega
          obtain ⟨h'', hover, ho'', hkept''⟩ := ho'.overwrite data (mem_answered s.live hp) hfit
          rw [hover]
          simp only []
          have hmem' : ptr ∈ answered s.live p := by
            rw [answered, if_neg hp]
            exact List.mem_cons_of_mem _ hmem
          have hne : p ≠ ptr := by
            intro heq
            have hnodup := ho'.2.choose_spec.2.1
            rw [answered, if_neg hp, heq] at hnodup
            exact (List.nodup_cons.mp hnodup).1 hmem
          obtain ⟨h₃, hfree, ho₃, hkept₃⟩ := ho''.free hmem'
          rw [hfree]
          have hsize₃ : h₃.mem (MallocHeap.blockOf p) = h'.mem (MallocHeap.blockOf p) :=
            (hkept₃ p (mem_answered s.live hp) hne).trans (hkept'' p (mem_answered s.live hp))
          refine ⟨p, h₃, rfl, .inr ?_, fun _ _ => by rw [hsize₃]; exact hroom⟩
          rw [if_neg fun hboth => hp hboth.2]
          rw [answered, if_neg hp, List.erase_cons_tail (by simpa using hne)] at ho₃
          rw [answered, if_neg hp]
          exact ho₃

/-- A `free` of null or of a live pointer returns. -/
theorem Inv.free (hi : s.Inv ar) {ptr : ℕ} (hptr : ptr = 0 ∨ ptr ∈ s.live) :
    ∃ h', s.heap.free ptr = some h' ∧ Inv ar ⟨h', s.live.erase ptr⟩ := by
  rcases hptr with hnull | hmem
  · have hzero : (0 : ℕ) ∉ s.live := fun hmem => (hi.owns hmem).ne_zero hmem rfl
    rw [hnull, MallocHeap.free, if_pos rfl, List.erase_of_not_mem hzero]
    exact ⟨s.heap, rfl, hi⟩
  · obtain ⟨h', hfree, ho, -⟩ := (hi.owns hmem).free hmem
    exact ⟨h', hfree, .inr ho⟩

theorem Inv.step {c : MallocCall} (hi : s.Inv ar) (hstep : s.Step ar c s') : s'.Inv ar := by
  rw [Step] at hstep
  cases c with
  | malloc size =>
    obtain ⟨p, h', hr, ho, -⟩ := hi.malloc size
    rw [exec, hr] at hstep
    obtain rfl := Option.some.inj hstep
    exact .inr ho
  | calloc n size =>
    rcases hi.calloc n size with ⟨p, h', hr, hi'⟩ | ⟨-, hr⟩
    · rw [exec, hr] at hstep
      obtain rfl := Option.some.inj hstep
      exact hi'
    · rw [exec, hr] at hstep
      cases hstep
  | realloc ptr size data =>
    rw [exec] at hstep
    split at hstep
    · rename_i hptr
      obtain ⟨p, h', hr, hi', -⟩ := hi.realloc data hptr size
      rw [hr] at hstep
      obtain rfl := Option.some.inj hstep
      exact hi'
    · cases hstep
  | free ptr =>
    rw [exec] at hstep
    split at hstep
    · rename_i hptr
      obtain ⟨h', hr, hi'⟩ := hi.free hptr
      rw [hr] at hstep
      obtain rfl := Option.some.inj hstep
      exact hi'
    · cases hstep

/-- The heap is in order: its list is `l`, and the live pointers are payloads of it. -/
structure HeapOk (ar : Arena) (s : MallocRun) (l : List ℕ) : Prop where
  first : s.heap.gFirst = ar.base
  /-- The blocks fill the arena, with payloads of multiples of 16 bytes and no two free neighbours. -/
  tiled : Tiled ar s.heap.mem l
  /-- A live pointer is the payload of exactly one block, which is not free. -/
  payload : ∀ p ∈ s.live, ∃! b, b ∈ l ∧ (s.heap.mem b).free = false ∧ p = b + HDR
  /-- The payloads of live pointers share no byte. -/
  apart : s.live.Pairwise fun p q =>
    RangesApart p (s.heap.mem (MallocHeap.blockOf p)).size q (s.heap.mem (MallocHeap.blockOf q)).size

theorem heapOk_of_owns (ho : Owns ar s.heap s.live) : ∃ l, HeapOk ar s l := by
  obtain ⟨hfirst, l, ht, hnodup, hlive⟩ := ho
  refine ⟨l, hfirst, ht, fun p hp => ?_, hnodup.imp_of_mem fun {p q} hp hq hne => ?_⟩
  · obtain ⟨b, hb, hfree, hpb⟩ := (hlive p).mp hp
    refine ⟨b, ⟨hb, hfree, hpb⟩, fun c hc => ?_⟩
    have hpc := hc.2.2
    omega
  · obtain ⟨b, hb, -, rfl⟩ := (hlive p).mp hp
    obtain ⟨c, hc, -, rfl⟩ := (hlive q).mp hq
    have hblock : ∀ a, MallocHeap.blockOf (a + HDR) = a := fun a => Nat.add_sub_cancel ..
    rw [hblock, hblock]
    have hbc : b ≠ c := fun heq => hne (by rw [heq])
    refine (ht.apart hb hc hbc).mono (Nat.le_add_right _ _) ?_ (Nat.le_add_right _ _) ?_
    · omega
    · omega

/-- **The heap of a user program is in order** in every run, from its first call on. -/
theorem heapOk_of_run (ar : Arena) (mem : ℕ → BlockT) {s : MallocRun} (h : Reaches (Step ar) (start mem) s) :
    (s.heap.gFirst = 0 ∧ s.live = []) ∨ ∃ l, HeapOk ar s l := by
  have hinv : s.Inv ar := by
    apply h.invariant
    · exact .inl ⟨rfl, rfl⟩
    · exact fun s c s' hi hstep => hi.step hstep
  rcases hinv with hunset | ho
  · exact .inl hunset
  · exact .inr (heapOk_of_owns ho)

/-- An arena at 4 MiB. -/
def lowArena : Arena := ⟨0x400000, by decide, by decide⟩

/-- Three blocks, the middle one freed and taken again in part, the first one moved behind the last. -/
def lowCalls : List MallocCall :=
  [.malloc 100, .malloc 200, .malloc 5, .free 0x4000B0, .calloc 3 7, .realloc 0x400020 300 fun _ => ⟨0, 0, false⟩]

def lowRun : MallocRun := runLast (exec lowArena) (start fun _ => ⟨0, 0, false⟩) lowCalls

theorem heapOk_of_run_lowRun : Reaches (Step lowArena) (start fun _ => ⟨0, 0, false⟩) lowRun ∧
    lowRun.live = [0x4001D0, 0x4000B0, 0x4001A0] ∧ ∃ l, HeapOk lowArena lowRun l := by
  have hsteps : (runSteps (exec lowArena) (start fun _ => ⟨0, 0, false⟩) lowCalls).isSome = true := by decide +kernel
  have hrun : Reaches (Step lowArena) (start fun _ => ⟨0, 0, false⟩) lowRun := (trace_runLast hsteps).reaches .start
  have hlive : lowRun.live = [0x4001D0, 0x4000B0, 0x4001A0] := by decide +kernel
  refine ⟨hrun, hlive, (heapOk_of_run lowArena _ hrun).resolve_left fun hunset => ?_⟩
  rw [hlive] at hunset
  cases hunset.2

end MallocRun

end LizardOs.User
