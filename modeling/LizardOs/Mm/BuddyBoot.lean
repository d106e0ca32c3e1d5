import LizardOs.Lib.Strides
import LizardOs.Mm.BuddySafety

/-!
# Which pages the page allocator starts with

What `buddy_init` should put on the free lists is said in addresses: the pages that lie fully inside a usable entry
of the memory map, outside the kernel image and outside what the early allocator has handed out.  The code marks fewer.
Where it rounds the end of an entry down, the macro `align_down` rounds only the length, so that an entry is taken to
end at its length; the pages behind that are lost unless they are reserved anyway.
-/

namespace LizardOs.Mm

open LizardOs.Lib

/-! ### Grouping takes the largest block -/

namespace Buddy

variable {b b₀ : Buddy} {i k n : ℕ}

theorem groupOrder_largest (hlt : b.groupOrder i n < k) (hk : k ≤ n) : b.fits i k = false := by
  induction n with
  | zero => omega
  | succ n ih =>
    rw [groupOrder] at hlt
    split at hlt
    · omega
    · rename_i hnot
      by_cases hkn : k = n + 1
      · rw [hkn]
        exact Bool.eq_false_iff.mpr hnot
      · exact ih hlt (by omega)

theorem fits_congr (hflags : ∀ p, (b.pages p).flags = (b₀.pages p).flags) (hcount : b.pageCount = b₀.pageCount)
    (i k : ℕ) : b.fits i k = b₀.fits i k := by
  simp only [fits, hflags, hcount]

/-- No block on the lists could have been larger. -/
def Largest (b₀ b : Buddy) : Prop :=
  ∀ blk ∈ b.freeBlocks, ∀ k, blk.order < k → k ≤ MAX_ORDER → b₀.fits blk.start k = false

theorem Largest.group (n : ℕ) (hg : Grouped b₀ b i) (hl : Largest b₀ b) : Largest b₀ (b.group n i) := by
  induction n generalizing b i with
  | zero => exact hl
  | succ n ih =>
    rw [Buddy.group]
    split
    · exact hl
    · rename_i hi
      split
      · rename_i hfree
        exact ih (hg.skip hfree) hl
      · rename_i hfree
        obtain ⟨hk, hfit⟩ := groupOrder_fits (Nat.lt_of_not_le hi) (not_not.mp hfree) MAX_ORDER
        refine ih (hg.add hk hfit) fun blk hblk k hlt hle => ?_
        rcases List.mem_cons.mp ((freeBlocks_addBlock b i hk).mem_iff.mp hblk) with rfl | hold
        · rw [← fits_congr hg.flags hg.pageCount]
          exact groupOrder_largest hlt hle
        · exact hl blk hold k hlt hle

/-- The free lists hold the pages of `F`, in blocks that are as large as can be. -/
structure Partitions (b : Buddy) (F : ℕ → Prop) : Prop where
  tiles : Tiles b.freeBlocks b.pageCount F
  orders : ∀ blk ∈ b.freeBlocks, blk.order ≤ MAX_ORDER
  /-- A larger block at the same page would be unaligned or contain a page that is not of `F`. -/
  largest : ∀ blk ∈ b.freeBlocks, ∀ k, blk.order < k → k ≤ MAX_ORDER → 2 ^ k ∣ blk.start →
    ∃ p, (⟨blk.start, k⟩ : Block).Has p ∧ ¬F p

end Buddy

theorem buddyInit_largest (bi : BootInfo) : Buddy.Largest bi.marked (buddyInit bi) := by
  refine Buddy.Largest.group bi.detectPageCount (marked_grouped bi) fun blk hblk => ?_
  rw [marked_freeBlocks] at hblk
  cases hblk

/-- A page of the array that is marked free before grouping. -/
def BootInfo.Marked (bi : BootInfo) (p : ℕ) : Prop := p < bi.marked.pageCount ∧ (bi.marked.pages p).flags = .free

/-- **`buddy_init`** partitions the pages it has marked. -/
theorem buddyInit_partitions_marked (bi : BootInfo) : (buddyInit bi).Partitions bi.Marked := by
  obtain ⟨j, hj, hg⟩ := buddyInit_grouped bi
  refine ⟨hg.tiles.congr fun p => ?_, fun blk hblk => (Buddy.mem_freeBlocks.mp hblk).1,
    fun blk hblk k hlt hle hdvd => ?_⟩
  · rw [hg.pageCount, BootInfo.Marked]
    constructor
    · exact fun hp => ⟨Nat.lt_of_lt_of_le hp.1 hj, hp⟩
    · exact fun hp => hp.2
  · have hnot := buddyInit_largest bi blk hblk k hlt hle
    by_contra hall
    have hmarked : ∀ p, (⟨blk.start, k⟩ : Block).Has p → bi.Marked p := by
      intro p hp
      by_contra hno
      exact hall ⟨p, hp, hno⟩
    have hpos := Nat.two_pow_pos k
    have hlast : bi.Marked (blk.start + 2 ^ k - 1) := by
      apply hmarked
      constructor
      · show blk.start ≤ _
        omega
      · show _ < blk.start + 2 ^ k
        omega
    have hin := hlast.1
    have hfits : bi.marked.fits blk.start k = true :=
      Buddy.fits_iff.mpr ⟨hdvd, by omega, fun p hp => (hmarked p hp).2⟩
    rw [hnot] at hfits
    cases hfits

/-- The free lists partition a set of pages exactly when these are the marked ones. -/
theorem buddyInit_partitions_iff (bi : BootInfo) (F : ℕ → Prop) :
    (buddyInit bi).Partitions F ↔ ∀ p, F p ↔ bi.Marked p := by
  have hmarked := buddyInit_partitions_marked bi
  constructor
  · intro hp p
    rw [hp.tiles.cover, hmarked.tiles.cover]
  · intro hsame
    obtain rfl : F = bi.Marked := funext fun p => propext (hsame p)
    exact hmarked

/-! ### What the boot information says about a page -/

/-- The page lies before or behind the addresses from `start` to `stop`. -/
def PageOutside (p start stop : ℕ) : Prop := (p + 1) * PAGE_SIZE ≤ start ∨ stop ≤ p * PAGE_SIZE

/-- The page lies fully inside the entry. -/
def MmapEntry.HasPage (e : MmapEntry) (p : ℕ) : Prop :=
  e.base ≤ p * PAGE_SIZE ∧ (p + 1) * PAGE_SIZE ≤ e.base + e.len

/-- The entries have no address in common. -/
def MmapEntry.Apart (e e' : MmapEntry) : Prop :=
  ∀ x, ¬(e.base ≤ x ∧ x < e.base + e.len ∧ e'.base ≤ x ∧ x < e'.base + e'.len)

namespace BootInfo

variable {bi : BootInfo} {p : ℕ}

/-- The page is outside the kernel image and outside what the early allocator has handed out. -/
def Unreserved (bi : BootInfo) (p : ℕ) : Prop :=
  PageOutside p bi.kernelPhysBase (bi.kernelPhysBase + bi.kernelSize) ∧ PageOutside p bi.earlyBase bi.earlyCurrent

/-- The pages the allocator should start with. -/
def Available (bi : BootInfo) (p : ℕ) : Prop :=
  (∃ e ∈ bi.mmap, e.type = .usable ∧ e.HasPage p) ∧ bi.Unreserved p

/-- Every range ends at least a page before the end of the 64-bit address space, as physical addresses do. -/
structure Addressable (bi : BootInfo) : Prop where
  usable : ∀ e ∈ bi.mmap, e.type = .usable → e.base + e.len + PAGE_SIZE ≤ 2 ^ 64
  kernel : bi.kernelPhysBase + bi.kernelSize + PAGE_SIZE ≤ 2 ^ 64
  early : bi.earlyCurrent + PAGE_SIZE ≤ 2 ^ 64

/-- A usable entry overlaps no other. -/
def UsableApart (bi : BootInfo) : Prop :=
  bi.mmap.Pairwise fun e e' => e.type = .usable ∨ e'.type = .usable → e.Apart e'

/-- The pages of a usable entry behind its length are reserved. -/
def TailsReserved (bi : BootInfo) : Prop :=
  ∀ e ∈ bi.mmap, e.type = .usable → ∀ p, e.HasPage p → bi.Unreserved p → (p + 1) * PAGE_SIZE ≤ e.len

/-! ### Rounding to pages -/

theorem alignUp_div_le_iff {x : ℕ} (hx : x + PAGE_SIZE ≤ 2 ^ 64) : alignUp x / PAGE_SIZE ≤ p ↔ x ≤ p * PAGE_SIZE := by
  rw [PAGE_SIZE] at hx
  rw [alignUp_eq, PAGE_SIZE, Nat.mod_eq_of_lt (by omega)]
  omega

theorem lt_alignDown_div_iff (x : ℕ) : p < alignDown x / PAGE_SIZE ↔ (p + 1) * PAGE_SIZE ≤ x := by
  rw [alignDown, PAGE_SIZE]
  omega

/-- What `align_down` makes of the end of an entry: its length, rounded down. -/
theorem freeStop_eq {e : MmapEntry} (he : e.base + e.len < 2 ^ 64) : e.freeStop = alignDown e.len := by
  have hle : e.len % PAGE_SIZE ≤ e.len := Nat.mod_le _ _
  have hmod : (e.base + e.len % PAGE_SIZE) % 2 ^ 64 = e.base + e.len % PAGE_SIZE := Nat.mod_eq_of_lt (by omega)
  rw [MmapEntry.freeStop, alignDown, hmod]
  have hsum : e.base + e.len + 2 ^ 64 - (e.base + e.len % PAGE_SIZE) = e.len - e.len % PAGE_SIZE + 2 ^ 64 := by omega
  rw [hsum, Nat.add_mod_right, Nat.mod_eq_of_lt (by omega)]

theorem keeps_iff (ha : bi.Addressable) : bi.keeps p ↔ ¬bi.Unreserved p := by
  have hkernel := ha.kernel
  have hearly := ha.early
  have hsum : (bi.kernelPhysBase + bi.kernelSize) % 2 ^ 64 = bi.kernelPhysBase + bi.kernelSize := by
    apply Nat.mod_eq_of_lt
    rw [PAGE_SIZE] at hkernel
    omega
  have hfirst : ∀ x, x / PAGE_SIZE ≤ p ↔ ¬(p + 1) * PAGE_SIZE ≤ x := by
    intro x
    rw [PAGE_SIZE]
    omega
  have hdown : alignDown bi.earlyBase / PAGE_SIZE ≤ p ↔ ¬(p + 1) * PAGE_SIZE ≤ bi.earlyBase := by
    rw [← lt_alignDown_div_iff, Nat.not_lt]
  rw [keeps, Unreserved, PageOutside, PageOutside, hsum, hfirst, hdown, ← Nat.not_le, ← Nat.not_le,
    alignUp_div_le_iff hkernel, alignUp_div_le_iff hearly]
  tauto

/-! ### What is marked -/

theorem markUsable_free (pages : ℕ → BuddyPage) (e : MmapEntry) :
    (bi.markUsable pages e p).flags = .free ↔ (pages p).flags = .free ∨
      (e.type = .usable ∧ alignUp e.base / PAGE_SIZE ≤ p ∧ p < e.freeStop / PAGE_SIZE ∧ ¬bi.keeps p) := by
  rw [markUsable]
  split
  · rename_i htype
    simp only [htype, false_and, or_false]
  · rename_i htype
    split
    · rename_i hempty
      have hdiv : e.freeStop / PAGE_SIZE ≤ alignUp e.base / PAGE_SIZE := Nat.div_le_div_right hempty
      constructor
      · exact .inl
      · rintro (h | ⟨-, h1, h2, -⟩)
        · exact h
        · omega
    · simp only []
      split
      · rename_i hrange
        exact ⟨fun _ => .inr ⟨not_not.mp htype, hrange⟩, fun _ => rfl⟩
      · rename_i hrange
        exact ⟨.inl, fun h => h.resolve_right fun h => hrange h.2⟩

theorem marked_free :
    (bi.marked.pages p).flags = .free ↔ ∃ e ∈ bi.mmap, e.type = .usable ∧ alignUp e.base / PAGE_SIZE ≤ p ∧
      p < e.freeStop / PAGE_SIZE ∧ ¬bi.keeps p := by
  have hall : ∀ (l : List MmapEntry) (pages : ℕ → BuddyPage), (l.foldl bi.markUsable pages p).flags = .free ↔
      (pages p).flags = .free ∨ ∃ e ∈ l, e.type = .usable ∧ alignUp e.base / PAGE_SIZE ≤ p ∧
        p < e.freeStop / PAGE_SIZE ∧ ¬bi.keeps p := by
    intro l
    induction l with
    | nil => simp
    | cons e l ih =>
      intro pages
      rw [List.foldl_cons, ih, markUsable_free, List.exists_mem_cons_iff, or_assoc]
  show (bi.mmap.foldl bi.markUsable (fun _ => ⟨0, .reserved⟩) p).flags = .free ↔ _
  rw [hall]
  simp only [reduceCtorEq, false_or]

/-- `detect_page_count` covers the usable entries. -/
theorem lt_pageCount {e : MmapEntry} (ha : bi.Addressable) (he : e ∈ bi.mmap) (htype : e.type = .usable)
    (hp : e.HasPage p) : p < bi.detectPageCount := by
  -- the largest end is at least the end of the entry, and no larger than all of them may be
  have hall : ∀ (l : List MmapEntry) (m : ℕ), m + PAGE_SIZE ≤ 2 ^ 64 →
      (∀ e ∈ l, e.type = .usable → e.base + e.len + PAGE_SIZE ≤ 2 ^ 64) →
      let top := l.foldl (fun m e => if e.type = .usable ∧ m < e.stop then e.stop else m) m
      m ≤ top ∧ top + PAGE_SIZE ≤ 2 ^ 64 ∧ ∀ e ∈ l, e.type = .usable → e.stop ≤ top := by
    intro l
    induction l with
    | nil => exact fun m hm _ => ⟨le_refl m, hm, fun e he => absurd he List.not_mem_nil⟩
    | cons e l ih =>
      intro m hm hl
      have hrest : ∀ e ∈ l, e.type = .usable → e.base + e.len + PAGE_SIZE ≤ 2 ^ 64 :=
        fun e he => hl e (List.mem_cons_of_mem _ he)
      rw [List.foldl_cons]
      split
      · rename_i hmore
        have hstop : e.stop + PAGE_SIZE ≤ 2 ^ 64 :=
          (Nat.add_le_add_right (Nat.mod_le _ _) _).trans (hl e List.mem_cons_self hmore.1)
        obtain ⟨h1, h2, h3⟩ := ih e.stop hstop hrest
        refine ⟨hmore.2.le.trans h1, h2, fun e' he' hu => ?_⟩
        rcases List.mem_cons.mp he' with rfl | he'
        · exact h1
        · exact h3 e' he' hu
      · rename_i hnot
        obtain ⟨h1, h2, h3⟩ := ih m hm hrest
        refine ⟨h1, h2, fun e' he' hu => ?_⟩
        rcases List.mem_cons.mp he' with rfl | he'
        · exact (Nat.le_of_not_lt fun hlt => hnot ⟨hu, hlt⟩).trans h1
        · exact h3 e' he' hu
  obtain ⟨-, htop, hge⟩ := hall bi.mmap 0 (by decide) ha.usable
  have hbound := ha.usable e he htype
  have hstop : e.stop = e.base + e.len := by
    apply Nat.mod_eq_of_lt
    rw [PAGE_SIZE] at hbound
    omega
  have hle := hge e he htype
  rw [hstop] at hle
  rw [detectPageCount, ← Nat.not_le, alignUp_div_le_iff htop]
  have hend := hp.2
  rw [PAGE_SIZE] at hend ⊢
  omega

/-- The marked pages are those of usable entries up to their length. -/
theorem marked_iff (ha : bi.Addressable) :
    bi.Marked p ↔ (∃ e ∈ bi.mmap, e.type = .usable ∧ e.HasPage p ∧ (p + 1) * PAGE_SIZE ≤ e.len) ∧ bi.Unreserved p := by
  have hrange : ∀ e ∈ bi.mmap, e.type = .usable →
      ((alignUp e.base / PAGE_SIZE ≤ p ∧ p < e.freeStop / PAGE_SIZE) ↔ e.HasPage p ∧ (p + 1) * PAGE_SIZE ≤ e.len) := by
    intro e he htype
    have hbound := ha.usable e he htype
    rw [alignUp_div_le_iff (by omega), freeStop_eq (by rw [PAGE_SIZE] at hbound; omega), lt_alignDown_div_iff,
      MmapEntry.HasPage]
    constructor
    · exact fun h => ⟨⟨h.1, h.2.trans (Nat.le_add_left _ _)⟩, h.2⟩
    · exact fun h => ⟨h.1.1, h.2⟩
  rw [Marked, marked_free]
  constructor
  · intro ⟨_, e, he, htype, hfirst, hlast, hkeeps⟩
    rw [keeps_iff ha, not_not] at hkeeps
    exact ⟨⟨e, he, htype, (hrange e he htype).mp ⟨hfirst, hlast⟩⟩, hkeeps⟩
  · intro ⟨⟨e, he, htype, hin⟩, hfree⟩
    obtain ⟨hfirst, hlast⟩ := (hrange e he htype).mpr hin
    exact ⟨lt_pageCount ha he htype hin.1, e, he, htype, hfirst, hlast, by rw [keeps_iff ha, not_not]; exact hfree⟩

/-- Entries that overlap have no page in common. -/
theorem eq_of_hasPage (hapart : bi.UsableApart) {e e' : MmapEntry} (he : e ∈ bi.mmap) (he' : e' ∈ bi.mmap)
    (htype : e.type = .usable) (hp : e.HasPage p) (hp' : e'.HasPage p) : e = e' := by
  by_contra hne
  have hsymm : Std.Symm fun e e' : MmapEntry => e.type = .usable ∨ e'.type = .usable → e.Apart e' :=
    ⟨fun e e' h hor x hx => h hor.symm x ⟨hx.2.2.1, hx.2.2.2, hx.1, hx.2.1⟩⟩
  have happ := hapart.forall he he' hne (.inl htype)
  obtain ⟨h1, h2⟩ := hp
  obtain ⟨h3, h4⟩ := hp'
  rw [PAGE_SIZE] at h1 h2 h3 h4
  exact happ (p * 4096) ⟨h1, by omega, h3, by omega⟩

/-- **`buddy_init`** partitions the available pages exactly when no page of a usable entry behind its length is
available. -/
theorem buddyInit_partitions_available_iff (bi : BootInfo) (ha : bi.Addressable) (hapart : bi.UsableApart) :
    (buddyInit bi).Partitions bi.Available ↔ bi.TailsReserved := by
  rw [buddyInit_partitions_iff]
  constructor
  · intro hsame e he htype p hp hfree
    obtain ⟨⟨e', he', htype', hp', hlen⟩, -⟩ := (marked_iff ha).mp ((hsame p).mp ⟨⟨e, he, htype, hp⟩, hfree⟩)
    obtain rfl := eq_of_hasPage hapart he he' htype hp hp'
    exact hlen
  · intro htails p
    rw [marked_iff ha]
    constructor
    · intro ⟨⟨e, he, htype, hp⟩, hfree⟩
      exact ⟨⟨e, he, htype, hp, htails e he htype p hp hfree⟩, hfree⟩
    · intro ⟨⟨e, he, htype, hp, _⟩, hfree⟩
      exact ⟨⟨e, he, htype, hp⟩, hfree⟩

/-- Six usable pages from page 2 on, with the page array of the allocator in the first one and the kernel image in the last
two. -/
def kernelBehind : BootInfo := ⟨[⟨0x2000, 0x6000, .usable⟩], 0x6000, 0x2000, 0x2000, 0x20C0, 0xFFFF800000000000⟩

/-- The pages between them are on the lists, in two blocks. -/
theorem buddyInit_partitions_available_iff_kernelBehind :
    (buddyInit kernelBehind).Partitions kernelBehind.Available ∧
      (buddyInit kernelBehind).freeBlocks = [⟨3, 0⟩, ⟨4, 1⟩] := by
  have ha : kernelBehind.Addressable := by
    constructor
    · intro e he _
      obtain rfl := List.mem_singleton.mp he
      decide
    · decide
    · decide
  have htails : kernelBehind.TailsReserved := by
    intro e he _ p hp hfree
    obtain rfl := List.mem_singleton.mp he
    have hlast : (p + 1) * 4096 ≤ 0x2000 + 0x6000 := hp.2
    show (p + 1) * 4096 ≤ 0x6000
    rcases hfree.1 with hbefore | hbehind
    · exact hbefore
    · have hstart : 0x6000 + 0x2000 ≤ p * 4096 := hbehind
      omega
  have hlists : buddyInit kernelBehind = (kernelBehind.marked.addBlock 3 0).addBlock 4 1 := rfl
  refine ⟨(buddyInit_partitions_available_iff kernelBehind ha (List.pairwise_singleton _ _)).mpr htails, ?_⟩
  rw [hlists]
  decide

/-- Four usable pages from page 2 on, with the page array of the allocator in the first one and the kernel image in
page 0. -/
def kernelInFront : BootInfo := ⟨[⟨0x2000, 0x4000, .usable⟩], 0, 0x1000, 0x2000, 0x2090, 0xFFFF800000000000⟩

/-- Pages 4 and 5 are available then and on no list. -/
theorem not_partitions_available_kernelInFront :
    kernelInFront.Addressable ∧ kernelInFront.UsableApart ∧
      ¬(buddyInit kernelInFront).Partitions kernelInFront.Available := by
  refine ⟨⟨fun e he _ => ?_, by decide, by decide⟩, List.pairwise_singleton _ _, fun hp => ?_⟩
  · obtain rfl := List.mem_singleton.mp he
    decide
  · have hwanted : kernelInFront.Available 4 :=
      ⟨⟨⟨0x2000, 0x4000, .usable⟩, List.mem_singleton_self _, rfl, by decide, by decide⟩, .inr (by decide),
        .inr (by decide)⟩
    have hmissing : ¬∃ blk ∈ (buddyInit kernelInFront).freeBlocks, blk.Has 4 := by decide
    exact hmissing ((hp.tiles.cover 4).mp hwanted)

end BootInfo

end LizardOs.Mm
