import LizardOs.User.HeapBytes
import LizardOs.User.MallocSafety

/-!
# The headers in the bytes

The functions over bytes do to the headers what those of `Malloc` do, as long as the headers that are written lie apart
from the others.  `Agree` says so for a list of blocks; each function keeps it, and says which bytes it writes.
-/

namespace LizardOs.User

open LizardOs.Lib

namespace HeapBytes

/-- The header at `b`. -/
def block (h : HeapBytes) (b : ℕ) : BlockT := ⟨h.size b, h.next b, decide (h.free b ≠ 0)⟩

/-- The headers at all addresses. -/
def heads (h : HeapBytes) : MallocHeap := ⟨h.block, h.gFirst⟩

end HeapBytes

open HeapBytes

variable {ar : Arena} {h h' h'' : HeapBytes} {H H' : MallocHeap} {l : List ℕ} {a b c nx s n f v want : ℕ} {t t' : BlockT}

/-- Two headers share no byte. -/
def Clear (a b : ℕ) : Prop := a + 24 ≤ b ∨ b + 24 ≤ a

/-! ### Writing one header -/

theorem block_congr (hsame : ∀ x, a ≤ x → x < a + 24 → h'.mem x = h.mem x) : h'.block a = h.block a := by
  have hsize : h'.size a = h.size a := loadLe_congr fun k hk => hsame _ (by omega) (by omega)
  have hnext : h'.next a = h.next a := loadLe_congr fun k hk => hsame _ (by omega) (by omega)
  have hfree : h'.free a = h.free a := loadLe_congr fun k hk => hsame _ (by omega) (by omega)
  rw [block, block, hsize, hnext, hfree]

/-- The header at `b` becomes `t`, and nothing else changes. -/
structure Wrote (h h' : HeapBytes) (b : ℕ) (t : BlockT) : Prop where
  first : h'.gFirst = h.gFirst
  block : h'.block b = t
  mem : ∀ x, x < b ∨ b + 24 ≤ x → h'.mem x = h.mem x

theorem Wrote.clear (hw : Wrote h h' b t) (hclear : Clear a b) : h'.block a = h.block a := by
  rw [Clear] at hclear
  exact block_congr fun x h1 h2 => hw.mem x (by omega)

theorem Wrote.trans (h1 : Wrote h h' b t) (h2 : Wrote h' h'' b t') : Wrote h h'' b t' :=
  ⟨h2.first.trans h1.first, h2.block, fun x hx => (h2.mem x hx).trans (h1.mem x hx)⟩

theorem wrote_setSize (hs : s < 2 ^ 64) : Wrote h (h.setSize b s) b { h.block b with size := s } := by
  refine ⟨rfl, ?_, fun x hx => splice_outside (by omega)⟩
  have hsize : (h.setSize b s).size b = s := loadLe_storeLe hs
  have hnext : (h.setSize b s).next b = h.next b := loadLe_storeLe_apart s (by omega)
  have hfree : (h.setSize b s).free b = h.free b := loadLe_storeLe_apart s (by omega)
  rw [HeapBytes.block, hsize, hnext, hfree]
  rfl

theorem wrote_setNext (hn : n < 2 ^ 64) : Wrote h (h.setNext b n) b { h.block b with next := n } := by
  refine ⟨rfl, ?_, fun x hx => splice_outside (by omega)⟩
  have hsize : (h.setNext b n).size b = h.size b := loadLe_storeLe_apart n (by omega)
  have hnext : (h.setNext b n).next b = n := loadLe_storeLe hn
  have hfree : (h.setNext b n).free b = h.free b := loadLe_storeLe_apart n (by omega)
  rw [HeapBytes.block, hsize, hnext, hfree]
  rfl

theorem wrote_setFree (hf : f < 2 ^ 32) : Wrote h (h.setFree b f) b { h.block b with free := decide (f ≠ 0) } := by
  refine ⟨rfl, ?_, fun x hx => splice_outside (by omega)⟩
  have hsize : (h.setFree b f).size b = h.size b := loadLe_storeLe_apart f (by omega)
  have hnext : (h.setFree b f).next b = h.next b := loadLe_storeLe_apart f (by omega)
  have hfree : (h.setFree b f).free b = f := loadLe_storeLe hf
  rw [HeapBytes.block, hsize, hnext, hfree]
  rfl

theorem next_lt (h : HeapBytes) (b : ℕ) : h.next b < 2 ^ 64 := loadLe_lt h.mem (b + 8) 8

theorem size_lt (h : HeapBytes) (b : ℕ) : h.size b < 2 ^ 64 := loadLe_lt h.mem b 8

theorem free_eq_zero_iff : h.free b = 0 ↔ (h.block b).free = false := by
  rw [block, decide_eq_false_iff_not, not_not]

/-- Two links of one header, as `join` and the end of `split` write them. -/
theorem wrote_link (hs : s < 2 ^ 64) (hn : n < 2 ^ 64) :
    Wrote h ((h.setSize b s).setNext b n) b ⟨s, n, (h.block b).free⟩ := by
  have hsize := wrote_setSize (h := h) (b := b) hs
  have hnext := wrote_setNext (h := h.setSize b s) (b := b) hn
  rw [hsize.block] at hnext
  exact hsize.trans hnext

theorem wrote_join (hclear : nx = b ∨ Clear nx b) :
    Wrote h (h.join b nx) b ⟨((h.block b).size + (HDR + (h.block nx).size)) % 2 ^ 64, (h.block nx).next,
      (h.block b).free⟩ := by
  have hnext : (h.setSize b ((h.size b + (HDR + h.size nx)) % 2 ^ 64)).next nx = h.next nx := by
    rw [Clear] at hclear
    exact loadLe_storeLe_apart _ (by omega)
  have hjoin : h.join b nx = (h.setSize b ((h.size b + (HDR + h.size nx)) % 2 ^ 64)).setNext b (h.next nx) := by
    rw [HeapBytes.join]
    simp only [hnext]
  rw [hjoin]
  exact wrote_link (Nat.mod_lt _ (by decide)) (next_lt h nx)

/-! ### Agreement -/

/-- The blocks of `l` have the same headers in the bytes and in `H`, lie apart, and lead to each other only. -/
structure Agree (h : HeapBytes) (H : MallocHeap) (l : List ℕ) : Prop where
  first : h.gFirst = H.gFirst
  blocks : ∀ a ∈ l, h.block a = H.mem a
  closed : ∀ a ∈ l, (H.mem a).next = 0 ∨ (H.mem a).next ∈ l
  clear : ∀ a ∈ l, ∀ b ∈ l, a ≠ b → Clear a b

/-- A header of the list is written on both sides. -/
theorem Agree.wrote (ha : Agree h H l) (hb : b ∈ l) (hw : Wrote h h' b t) (hnext : t.next = 0 ∨ t.next ∈ l) :
    Agree h' (H.setBlock b t) l := by
  have hself : (H.setBlock b t).mem b = t := Function.update_self ..
  have hother : ∀ a, a ≠ b → (H.setBlock b t).mem a = H.mem a := fun a hne => Function.update_of_ne hne ..
  refine ⟨hw.first.trans ha.first, fun a hmem => ?_, fun a hmem => ?_, ha.clear⟩
  · by_cases hab : a = b
    · rw [hab, hself, hw.block]
    · rw [hother a hab, hw.clear (ha.clear a hmem b hb hab), ha.blocks a hmem]
  · by_cases hab : a = b
    · rw [hab, hself]
      exact hnext
    · rw [hother a hab]
      exact ha.closed a hmem

/-- A header is written that lies apart from those of the list. -/
theorem Agree.cons (ha : Agree h H l) (hclear : ∀ a ∈ l, Clear a b) (hw : Wrote h h' b t)
    (hnext : t.next = 0 ∨ t.next ∈ l) : Agree h' (H.setBlock b t) (b :: l) := by
  have hself : (H.setBlock b t).mem b = t := Function.update_self ..
  have hne : ∀ a ∈ l, a ≠ b := by
    intro a hmem hab
    have hapart := hclear a hmem
    rw [Clear] at hapart
    omega
  have hother : ∀ a ∈ l, (H.setBlock b t).mem a = H.mem a := fun a hmem => Function.update_of_ne (hne a hmem) ..
  refine ⟨hw.first.trans ha.first, fun a hmem => ?_, fun a hmem => ?_, fun a hmem c hmem' hac => ?_⟩
  · rcases List.mem_cons.mp hmem with rfl | hmem
    · rw [hself, hw.block]
    · rw [hother a hmem, hw.clear (hclear a hmem), ha.blocks a hmem]
  · rcases List.mem_cons.mp hmem with rfl | hmem
    · rw [hself]
      exact hnext.imp_right (List.mem_cons_of_mem _)
    · rw [hother a hmem]
      exact (ha.closed a hmem).imp_right (List.mem_cons_of_mem _)
  · rcases List.mem_cons.mp hmem with heq | hold
    · rcases List.mem_cons.mp hmem' with heq' | hold'
      · exact absurd (heq.trans heq'.symm) hac
      · rw [heq]
        exact (hclear c hold').symm
    · rcases List.mem_cons.mp hmem' with heq' | hold'
      · rw [heq']
        exact hclear a hold
      · exact ha.clear a hold c hold' hac

theorem Agree.setFree (ha : Agree h H l) (hb : b ∈ l) (hf : f < 2 ^ 32) :
    Agree (h.setFree b f) (H.setBlock b { H.mem b with free := decide (f ≠ 0) }) l := by
  have hw := wrote_setFree (h := h) (b := b) hf
  rw [ha.blocks b hb] at hw
  exact ha.wrote hb hw (ha.closed b hb)

theorem Agree.join (ha : Agree h H l) (hb : b ∈ l) (hc : c ∈ l) : Agree (h.join b c) (H.join b c) l := by
  have hclear : c = b ∨ Clear c b := or_iff_not_imp_left.mpr fun hne => ha.clear c hc b hb hne
  have hw := wrote_join (h := h) hclear
  rw [ha.blocks b hb, ha.blocks c hc] at hw
  exact ha.wrote hb hw (ha.closed c hc)

/-! ### The loops -/

theorem coalesceForward_first (hH : MallocHeap.coalesceForward b n H = some H') : H'.gFirst = H.gFirst := by
  induction n generalizing H with
  | zero => cases hH
  | succ n ih =>
    rw [MallocHeap.coalesceForward] at hH
    split at hH
    · exact (ih hH).trans rfl
    · rw [Option.some.inj hH]

theorem findFit_heads (want n b : ℕ) : h.findFit want n b = h.heads.findFit want n b := by
  induction n generalizing b with
  | zero => rfl
  | succ n ih =>
    have hcase : (h.free b = 0 ∨ h.size b < want) ↔ (h.heads.mem b).free = false ∨ (h.heads.mem b).size < want :=
      or_congr free_eq_zero_iff Iff.rfl
    rw [HeapBytes.findFit, MallocHeap.findFit, ih, if_congr hcase rfl rfl]
    rfl

theorem Agree.findPrev (ha : Agree h H l) (n : ℕ) {p : ℕ} (hp : p = 0 ∨ p ∈ l) :
    h.findPrev b n p = H.findPrev b n p ∧ ∀ r, H.findPrev b n p = some r → r = 0 ∨ r ∈ l := by
  induction n generalizing p with
  | zero => exact ⟨rfl, fun r hr => by cases hr⟩
  | succ n ih =>
    rw [HeapBytes.findPrev, MallocHeap.findPrev]
    by_cases hzero : p = 0
    · rw [if_pos hzero, if_pos hzero]
      exact ⟨rfl, fun r hr => .inl (Option.some.inj hr).symm⟩
    · have hmem := hp.resolve_left hzero
      have hnext : h.next p = (H.mem p).next := congrArg BlockT.next (ha.blocks p hmem)
      rw [if_neg hzero, if_neg hzero, hnext]
      by_cases hfound : (H.mem p).next = b
      · rw [if_pos hfound, if_pos hfound]
        exact ⟨rfl, fun r hr => .inr (Option.some.inj hr ▸ hmem)⟩
      · rw [if_neg hfound, if_neg hfound]
        exact ih (ha.closed p hmem)

/-- The loop that joins the following blocks writes the header of `b` only. -/
theorem Agree.coalesceForward (ha : Agree h H l) (hb : b ∈ l) (n : ℕ)
    (hH : MallocHeap.coalesceForward b n H = some H') :
    ∃ h', HeapBytes.coalesceForward b n h = some h' ∧ Agree h' H' l ∧
      ∀ x, x < b ∨ b + 24 ≤ x → h'.mem x = h.mem x := by
  induction n generalizing h H with
  | zero => cases hH
  | succ n ih =>
    have hblock := ha.blocks b hb
    have hnext : h.next b = (H.mem b).next := congrArg BlockT.next hblock
    have hcond : (h.next b ≠ 0 ∧ h.free (h.next b) ≠ 0) ↔
        (H.mem b).next ≠ 0 ∧ (H.mem (H.mem b).next).free = true := by
      rw [hnext]
      refine and_congr_right fun hne => ?_
      rw [ne_eq, free_eq_zero_iff, Bool.not_eq_false, ha.blocks _ ((ha.closed b hb).resolve_left hne)]
    rw [MallocHeap.coalesceForward] at hH
    rw [HeapBytes.coalesceForward]
    by_cases hgo : (H.mem b).next ≠ 0 ∧ (H.mem (H.mem b).next).free = true
    · rw [if_pos hgo] at hH
      have hc := (ha.closed b hb).resolve_left hgo.1
      have hclear : (H.mem b).next = b ∨ Clear (H.mem b).next b :=
        or_iff_not_imp_left.mpr fun hne => ha.clear _ hc b hb hne
      obtain ⟨h', hrun, ha', hmem⟩ := ih (ha.join hb hc) hH
      refine ⟨h', ?_, ha', fun x hx => (hmem x hx).trans ((wrote_join hclear).mem x hx)⟩
      rw [if_pos (hcond.mpr hgo), hnext]
      exact hrun
    · rw [if_neg hgo] at hH
      obtain rfl := Option.some.inj hH
      exact ⟨h, if_neg fun hcase => hgo (hcond.mp hcase), ha, fun x _ => rfl⟩

/-- The end of `free` writes the header of a free block at most. -/
theorem Agree.coalesceBackward (ha : Agree h H l) (hb : b ∈ l) (hfirst : H.gFirst ∈ l)
    (hH : H.coalesceBackward b = some H') :
    ∃ h', h.coalesceBackward b = some h' ∧ Agree h' H' l ∧
      ∀ x, (∀ p ∈ l, (H.mem p).free = true → x < p ∨ p + 24 ≤ x) → h'.mem x = h.mem x := by
  obtain ⟨hsearch, hresult⟩ := ha.findPrev (b := b) WALK (.inr hfirst)
  rw [MallocHeap.coalesceBackward] at hH
  rw [HeapBytes.coalesceBackward, ha.first, hsearch]
  by_cases hhead : b = H.gFirst
  · rw [if_pos hhead] at hH
    rw [if_pos hhead]
    obtain rfl := Option.some.inj hH
    exact ⟨h, rfl, ha, fun x _ => rfl⟩
  · rw [if_neg hhead] at hH
    rw [if_neg hhead]
    cases hprev : H.findPrev b WALK H.gFirst with
    | none =>
      rw [hprev] at hH
      cases hH
    | some p =>
      rw [hprev] at hH
      simp only at hH ⊢
      by_cases hjoin : p ≠ 0 ∧ (H.mem p).free = true
      · have hp := (hresult p hprev).resolve_left hjoin.1
        have hfree : h.free p ≠ 0 := by
          rw [ne_eq, free_eq_zero_iff, Bool.not_eq_false, ha.blocks p hp]
          exact hjoin.2
        have hclear : b = p ∨ Clear b p := or_iff_not_imp_left.mpr fun hne => ha.clear b hb p hp hne
        rw [if_pos hjoin] at hH
        rw [if_pos ⟨hjoin.1, hfree⟩]
        obtain rfl := Option.some.inj hH
        exact ⟨_, rfl, ha.join hp hb, fun x hx => (wrote_join hclear).mem x (hx p hp hjoin.2)⟩
      · have hjoin' : ¬(p ≠ 0 ∧ h.free p ≠ 0) := by
          rintro ⟨hne, hfree⟩
          rw [ne_eq, free_eq_zero_iff, Bool.not_eq_false, ha.blocks p ((hresult p hprev).resolve_left hne)] at hfree
          exact hjoin ⟨hne, hfree⟩
        rw [if_neg hjoin] at hH
        rw [if_neg hjoin']
        obtain rfl := Option.some.inj hH
        exact ⟨h, rfl, ha, fun x _ => rfl⟩

/-- `free` writes the headers of the block it is given and of free blocks only. -/
theorem Agree.release (ha : Agree h H l) (hb : b ∈ l) (hfirst : H.gFirst ∈ l) (hH : H.free (b + HDR) = some H') :
    ∃ h', h.release (b + HDR) = some h' ∧ Agree h' H' l ∧
      ∀ x, (x < b ∨ b + 24 ≤ x) → (∀ p ∈ l, (H.mem p).free = true → x < p ∨ p + 24 ≤ x) → h'.mem x = h.mem x := by
  have hpos := hdr_pos
  have hne : b + HDR ≠ 0 := by omega
  have hblock : MallocHeap.blockOf (b + HDR) = b := Nat.add_sub_cancel ..
  rw [MallocHeap.free, if_neg hne] at hH
  rw [HeapBytes.release, if_neg hne]
  simp only [hblock] at hH ⊢
  have ha₁ := ha.setFree hb (f := 1) (by decide)
  have hw₁ := wrote_setFree (h := h) (b := b) (f := 1) (by decide)
  cases hforward : MallocHeap.coalesceForward b WALK (H.setBlock b { H.mem b with free := true }) with
  | none =>
    rw [hforward] at hH
    cases hH
  | some H₂ =>
    rw [hforward] at hH
    obtain ⟨h₂, hrun₂, ha₂, hmem₂⟩ := ha₁.coalesceForward hb WALK hforward
    have hfirst₂ : H₂.gFirst = H.gFirst := (coalesceForward_first hforward).trans rfl
    obtain ⟨h₃, hrun₃, ha₃, hmem₃⟩ := ha₂.coalesceBackward hb (by rw [hfirst₂]; exact hfirst) hH
    refine ⟨h₃, ?_, ha₃, fun x hx hfree => ?_⟩
    · rw [hrun₂]
      exact hrun₃
    · rw [hmem₃ x fun p hp hpfree => ?_, hmem₂ x hx, hw₁.mem x hx]
      by_cases hpb : p = b
      · rw [hpb]
        exact hx
      · -- only the header of `b` has changed so far
        refine hfree p hp ?_
        have hclear := ha.clear p hp b hb hpb
        rw [Clear] at hclear
        have hsame : h₂.block p = h.block p := by
          rw [← hw₁.clear hclear]
          exact block_congr fun y h1 h2 => hmem₂ y (by omega)
        rw [← ha.blocks p hp, ← hsame, ha₂.blocks p hp]
        exact hpfree

/-! ### `malloc` -/

/-- The header of the rest is written in front of that of the block. -/
theorem Agree.split (ha : Agree h H l) (hb : b ∈ l) (hclear : ∀ a ∈ l, Clear a (b + HDR + want))
    (hguard : (want + HDR + 16) % 2 ^ 64 ≤ (H.mem b).size) (hwant : want < 2 ^ 64) (hnb : b + HDR + want < 2 ^ 64) :
    Agree (h.split b want) (H.split b want) ((b + HDR + want) :: l) ∧
      ∀ x, (x < b ∨ b + 24 ≤ x) → (x < b + HDR + want ∨ b + HDR + want + 24 ≤ x) →
        (h.split b want).mem x = h.mem x := by
  set nb := b + HDR + want with hnbdef
  have hblock := ha.blocks b hb
  have hsize : h.size b = (H.mem b).size := congrArg BlockT.size hblock
  have hnext : h.next b = (H.mem b).next := congrArg BlockT.next hblock
  have hbclear := hclear b hb
  have hsmall : h.size b - want - HDR < 2 ^ 64 := by
    have hlt := size_lt h b
    omega
  set h₁ := h.setSize nb (h.size b - want - HDR) with hh₁
  have hw₁ := wrote_setSize (h := h) (b := nb) hsmall
  have hkept : h₁.next b = h.next b := congrArg BlockT.next (hw₁.clear hbclear)
  set h₃ := (h₁.setNext nb (h₁.next b)).setFree nb 1 with hh₃
  have hw₃ : Wrote h h₃ nb ⟨(H.mem b).size - want - HDR, (H.mem b).next, true⟩ := by
    have hw₂ := wrote_setNext (h := h₁) (b := nb) (next_lt h₁ b)
    rw [hw₁.block, hkept, hnext, hsize] at hw₂
    have hw := wrote_setFree (h := h₁.setNext nb (H.mem b).next) (b := nb) (f := 1) (by decide)
    rw [hw₂.block] at hw
    rw [hh₃, hkept, hnext]
    exact (hw₁.trans hw₂).trans hw
  have ha₃ := ha.cons hclear hw₃ (ha.closed b hb)
  have hw₅ : Wrote h₃ ((h₃.setSize b want).setNext b nb) b ⟨want, nb, (H.mem b).free⟩ := by
    have hfree : (h₃.block b).free = (H.mem b).free := by
      rw [hw₃.clear hbclear, hblock]
    rw [← hfree]
    exact wrote_link hwant hnb
  have hsplit : h.split b want = (h₃.setSize b want).setNext b nb := by
    rw [HeapBytes.split, if_pos (by rw [hsize]; exact hguard)]
  have hsplit' : H.split b want = (H.setBlock nb ⟨(H.mem b).size - want - HDR, (H.mem b).next, true⟩).setBlock b
      ⟨want, nb, (H.mem b).free⟩ := if_pos hguard
  rw [hsplit, hsplit']
  refine ⟨ha₃.wrote (List.mem_cons_of_mem _ hb) hw₅ (.inr List.mem_cons_self), fun x hx hxnb => ?_⟩
  rw [hw₅.mem x hx, hw₃.mem x hxnb]

theorem agree_heads (ht : Tiled ar h.block l) : Agree h h.heads l := by
  refine ⟨rfl, fun a _ => rfl, fun a hmem => ht.laid.next_mem hmem, fun a hmem b hmem' hne => ?_⟩
  have hhdr : HDR = 32 := rfl
  rcases ht.apart hmem hmem' hne with hle | hle
  · left
    omega
  · right
    omega

/-- What is handed out depends on the headers of the new list only. -/
theorem HandedOut.congr {w : ℕ} {l' : List ℕ} (ho : HandedOut ar H l b w H' l') (hfirst : h'.gFirst = H'.gFirst)
    (hblocks : ∀ a ∈ l', h'.block a = H'.mem a) : HandedOut ar H l b w h'.heads l' := by
  refine ⟨ho.tiled.congr hblocks, hfirst.trans ho.first, ho.mem, ho.fresh, fun q => ?_, fun a ha hafree => ?_, ?_⟩
  · rw [← ho.taken q]
    exact Taken.congr hblocks
  · obtain ⟨hmem, hsame⟩ := ho.kept a ha hafree
    exact ⟨hmem, (hblocks a hmem).trans hsame⟩
  · show w ≤ (h'.block b).size
    rw [hblocks b ho.mem]
    exact ho.size

/-- **`malloc` over bytes** answers null, and nothing has changed, or takes a free block, and writes inside it only. -/
theorem malloc_bytes (ht : Tiled ar h.block l) (hfirst : h.gFirst = ar.base) (want : ℕ) :
    h.malloc ar want = some (0, h) ∨
    ∃ b h' l', h.malloc ar want = some (b + HDR, h') ∧
      HandedOut ar h.heads l b (align16 (if want = 0 then 1 else want)) h'.heads l' ∧ b ∈ l ∧
      (h.block b).free = true ∧ ∀ x, x < b ∨ b + HDR + (h.block b).size ≤ x → h'.mem x = h.mem x := by
  set w := align16 (if want = 0 then 1 else want) with hw
  have hset : h.gFirst ≠ 0 := by
    rw [hfirst]
    exact Nat.pos_iff_ne_zero.mp ar.pos
  obtain ⟨b, hfind, hcases⟩ := findFit_spec (h := h.heads) w ht.laid ar.pos ht.length_lt
  have hmalloc : h.malloc ar want = if b = 0 then some (0, h) else some (b + HDR, (h.split b w).setFree b 0) := by
    rw [HeapBytes.malloc]
    simp only [if_neg hset, ← hw]
    rw [hfirst, findFit_heads, hfind]
  rw [hmalloc]
  rcases hcases with hzero | ⟨hmem, hfree, hsize⟩
  · left
    rw [if_pos hzero]
  · right
    have hin : 0 < b ∧ ar.base ≤ b ∧ b + HDR + (h.block b).size ≤ ar.base + HEAP_SIZE := ht.inside hmem
    have hsize : w ≤ (h.block b).size := hsize
    have hfits := ar.fits
    have hbound : USER_END = 2 ^ 47 := rfl
    have hhdr : HDR = 32 := rfl
    have ha := agree_heads ht
    rw [if_neg (Nat.pos_iff_ne_zero.mp hin.1)]
    obtain ⟨l₁, l₂, hl⟩ := List.append_of_mem hmem
    by_cases hcut : (w + HDR + 16) % 2 ^ 64 ≤ (h.block b).size
    · have hroom : w + HDR + 16 ≤ (h.block b).size := by
        rw [Nat.mod_eq_of_lt (by omega)] at hcut
        exact hcut
      have hclear : ∀ a ∈ l, Clear a (b + HDR + w) := by
        intro a hmem'
        rw [Clear]
        by_cases hab : a = b
        · omega
        · rcases ht.apart hmem' hmem hab with hle | hle
          · omega
          · omega
      obtain ⟨ha', hmem'⟩ := ha.split hmem hclear hcut (by omega) (by omega)
      have hout := handedOut_split (h := h.heads) (hl ▸ ht) hroom hfree (align16_dvd _)
      rw [← hl] at hout
      refine ⟨b, _, _, rfl, hout.congr (ha'.setFree (List.mem_cons_of_mem _ hmem) (by decide)).first fun a hal => ?_, hmem,
        hfree, fun x hx => ?_⟩
      · refine (ha'.setFree (List.mem_cons_of_mem _ hmem) (by decide)).blocks a ?_
        rw [hl]
        rw [List.mem_append, List.mem_cons, List.mem_cons] at hal
        rw [List.mem_cons, List.mem_append, List.mem_cons]
        tauto
      · rw [(wrote_setFree (by decide)).mem x (by omega), hmem' x (by omega) (by omega)]
    · have hwhole : h.split b w = h := if_neg hcut
      have hwhole' : h.heads.split b w = h.heads := if_neg hcut
      have hout := ((hl ▸ ht : Tiled ar h.heads.mem (l₁ ++ b :: l₂)).loose hfree).take hsize
      rw [← hl] at hout
      have ha' := ha.setFree hmem (f := 0) (by decide)
      rw [hwhole]
      refine ⟨b, _, _, rfl, hout.congr ha'.first ha'.blocks, hmem, hfree, fun x hx => ?_⟩
      rw [(wrote_setFree (by decide)).mem x (by omega)]

end LizardOs.User
