import LizardOs.Proc.LoadSafety

/-!
# The memory of a task

The loader writes to frames through the direct map, and the task reads them through its page tables.  A byte that was
written is read back, and the other bytes of the direct map are as they were.  As long as no two pages of a task share
a frame, and no frame of a page is a table, this holds for the addresses of the task too: a copy to its memory changes
the bytes at the addresses of the copy and no others.
-/

namespace LizardOs.Proc

open LizardOs.Lib LizardOs.Mm LizardOs.Mm.PageMem

/-- The byte at an address of the direct map. -/
def peek (s : PageMem) (k : ℕ) : UInt8 := leByte (s.entry (k / PAGE_SIZE * PAGE_SIZE) (k % PAGE_SIZE / 8)) (k % 8)

/-- The byte at an address of a task, if a page is there. -/
def userByte (s : PageMem) (pml4 uva : ℕ) : Option UInt8 := (s.pgtableKva pml4 uva).map (peek s)

/-- The `n` bytes from an address of a task on. -/
def userBytes (s : PageMem) (pml4 : ℕ) : ℕ → ℕ → Option (List UInt8)
  | _, 0 => some []
  | uva, n + 1 =>
      match userByte s pml4 uva, userBytes s pml4 (uva + 1) n with
      | some b, some bs => some (b :: bs)
      | _, _ => none

/-- The `n` words of 64 bits from an address of a task on. -/
def userWords (s : PageMem) (pml4 : ℕ) : ℕ → ℕ → Option (List ℕ)
  | _, 0 => some []
  | uva, n + 1 =>
      match userBytes s pml4 uva 8, userWords s pml4 (uva + 8) n with
      | some bs, some ws => some (field bs 0 8 :: ws)
      | _, _ => none

/-! ### Bytes of the direct map -/

theorem leByte_congr {v w j : ℕ} (h : v / 256 ^ j % 256 = w / 256 ^ j % 256) : leByte v j = leByte w j := by
  rw [leByte, leByte, h]

theorem leByte_putByte_self (e k : ℕ) (b : UInt8) : leByte (putByte e k b) k = b := by
  have hpos : 0 < 256 ^ k := Nat.pow_pos (by decide)
  have hlow : putByte e k b / 256 ^ k = e / 256 ^ (k + 1) * 256 + b.toNat := by
    have hsum : putByte e k b = (e / 256 ^ (k + 1) * 256 + b.toNat) * 256 ^ k + e % 256 ^ k := by
      rw [putByte, Nat.pow_succ, Nat.add_mul, Nat.mul_assoc, Nat.mul_comm 256]
    rw [hsum, Nat.mul_comm, Nat.mul_add_div hpos, Nat.div_eq_of_lt (Nat.mod_lt e hpos), Nat.add_zero]
  have hb : b.toNat < 256 := b.toNat_lt
  rw [leByte, hlow, Nat.add_comm, Nat.add_mul_mod_self_right, Nat.mod_eq_of_lt hb, UInt8.ofNat_toNat]

theorem leByte_putByte_of_ne (e : ℕ) {k j : ℕ} (b : UInt8) (h : j ≠ k) : leByte (putByte e k b) j = leByte e j := by
  have hpos : 0 < 256 ^ (k + 1) := Nat.pow_pos (by decide)
  have hk : 0 < 256 ^ k := Nat.pow_pos (by decide)
  have hb : b.toNat < 256 := b.toNat_lt
  apply leByte_congr
  rcases Nat.lt_or_gt_of_ne h with hlt | hgt
  · -- the bytes below place `k` are those of the remainder
    have hmod : putByte e k b % 256 ^ k = e % 256 ^ k := by
      have hsum : putByte e k b = 256 ^ k * (e / 256 ^ (k + 1) * 256 + b.toNat) + e % 256 ^ k := by
        rw [putByte, Nat.pow_succ]
        ring
      rw [hsum, Nat.mul_add_mod, Nat.mod_mod]
    have hdvd : 256 ^ j * 256 ∣ 256 ^ k := by
      rw [← Nat.pow_succ]
      exact Nat.pow_dvd_pow 256 hlt
    rw [← Nat.mod_mul_right_div_self, ← Nat.mod_mul_right_div_self, ← Nat.mod_mod_of_dvd _ hdvd, hmod,
      Nat.mod_mod_of_dvd _ hdvd]
  · -- those above it are those of the quotient
    have hrest : b.toNat * 256 ^ k + e % 256 ^ k < 256 ^ (k + 1) := by
      have hlast := Nat.mod_lt e hk
      have hmul : b.toNat * 256 ^ k ≤ 255 * 256 ^ k := Nat.mul_le_mul_right _ (by omega)
      rw [Nat.pow_succ]
      omega
    have hdiv : putByte e k b / 256 ^ (k + 1) = e / 256 ^ (k + 1) := by
      rw [putByte, Nat.add_assoc, Nat.mul_comm (e / _), Nat.mul_add_div hpos, Nat.div_eq_of_lt hrest, Nat.add_zero]
    obtain ⟨d, rfl⟩ := Nat.exists_eq_add_of_lt hgt
    have hsplit : 256 ^ (k + d + 1) = 256 ^ (k + 1) * 256 ^ d := by
      rw [← Nat.pow_add]
      congr 1
      omega
    rw [hsplit, ← Nat.div_div_eq_div_mul, ← Nat.div_div_eq_div_mul, hdiv]

theorem poke_entry (s : PageMem) (k : ℕ) (b : UInt8) :
    (poke s k b).entry = writeCell s.entry (k / PAGE_SIZE * PAGE_SIZE) (k % PAGE_SIZE / 8)
      (putByte (s.entry (k / PAGE_SIZE * PAGE_SIZE) (k % PAGE_SIZE / 8)) (k % 8) b) := rfl

theorem peek_poke_self (s : PageMem) (k : ℕ) (b : UInt8) : peek (poke s k b) k = b := by
  rw [peek, poke_entry, writeCell_self, leByte_putByte_self]

theorem peek_poke_of_ne (s : PageMem) {k a : ℕ} (b : UInt8) (h : a ≠ k) : peek (poke s k b) a = peek s a := by
  rw [peek, peek, poke_entry]
  by_cases hcell : a / PAGE_SIZE * PAGE_SIZE = k / PAGE_SIZE * PAGE_SIZE ∧ a % PAGE_SIZE / 8 = k % PAGE_SIZE / 8
  · obtain ⟨hframe, hplace⟩ := hcell
    have hbyte : a % 8 ≠ k % 8 := by
      rw [PAGE_SIZE] at hframe hplace
      omega
    rw [hframe, hplace, writeCell_self, leByte_putByte_of_ne _ _ hbyte]
  · rw [writeCell_of_ne (not_and_or.mp hcell)]

/-- The other bytes are as they were. -/
theorem peek_pokeBytes_outside (s : PageMem) {k a : ℕ} {bs : List UInt8} (h : a < k ∨ k + bs.length ≤ a) :
    peek (pokeBytes s k bs) a = peek s a := by
  induction bs generalizing s k with
  | nil => rfl
  | cons b bs ih =>
    rw [List.length_cons] at h
    rw [pokeBytes, ih _ (by omega), peek_poke_of_ne s b (by omega)]

/-- A copy is read back. -/
theorem peek_pokeBytes_inside (s : PageMem) (k : ℕ) {bs : List UInt8} {i : ℕ} (h : i < bs.length) :
    peek (pokeBytes s k bs) (k + i) = bs[i] := by
  induction bs generalizing s k i with
  | nil => exact absurd h (Nat.not_lt_zero i)
  | cons b bs ih =>
    rw [pokeBytes]
    cases i with
    | zero =>
      have hfirst : peek (pokeBytes (poke s k b) (k + 1) bs) k = b := by
        rw [peek_pokeBytes_outside _ (.inl (Nat.lt_succ_self k)), peek_poke_self]
      exact hfirst
    | succ i =>
      have hplace : k + (i + 1) = k + 1 + i := by omega
      rw [hplace, ih _ _ (Nat.lt_of_succ_lt_succ h), List.getElem_cons_succ]

theorem peek_clearFrame_inside (s : PageMem) {frame a : ℕ} (h : a / PAGE_SIZE * PAGE_SIZE = frame) :
    peek (clearFrame s frame) a = 0 := by
  have hentry : (clearFrame s frame).entry = Function.update s.entry frame fun _ => 0 := rfl
  have hzero : ∀ j, leByte 0 j = 0 := by
    intro j
    rw [leByte, Nat.zero_div, Nat.zero_mod]
    rfl
  rw [peek, hentry, h, Function.update_self, hzero]

/-! ### Addresses of a task -/

section

variable {s s' s'' : PageMem} {root v w k lo hi uva : ℕ} {bs src : List UInt8}

/-- An address space in order, where no two pages of the user half share a frame. -/
structure UserSpace (s : PageMem) (root : ℕ) : Prop where
  ok : LoadOk UserTablePath s root
  sole : ∀ v w, UserAddr v → UserAddr w → present (s.leafOf root v) = true → present (s.leafOf root w) = true →
    tableOf (s.leafOf root v) = tableOf (s.leafOf root w) →
      (tablePath w, tableIndex w 12) = (tablePath v, tableIndex v 12)

/-- Two addresses of a task are never one of the direct map. -/
theorem UserSpace.kva_inj (hs : UserSpace s root) (hv : v < 2 ^ 47) (hw : w < 2 ^ 47)
    (hvk : s.pgtableKva root v = some k) (hwk : s.pgtableKva root w = some k) : v = w := by
  obtain ⟨hpv, hkv⟩ := pgtableKva_eq_some_iff.mp hvk
  obtain ⟨hpw, hkw⟩ := pgtableKva_eq_some_iff.mp hwk
  have hav := tableOf_aligned (s.leafOf root v)
  have haw := tableOf_aligned (s.leafOf root w)
  have hlv := Nat.mod_lt v (show 0 < PAGE_SIZE by decide)
  have hlw := Nat.mod_lt w (show 0 < PAGE_SIZE by decide)
  have hframe : tableOf (s.leafOf root v) = tableOf (s.leafOf root w) ∧ v % PAGE_SIZE = w % PAGE_SIZE := by
    rw [PAGE_SIZE] at *
    omega
  obtain ⟨hpath, hlast⟩ := Prod.mk.inj (hs.sole v w (tableIndex_user hv) (tableIndex_user hw) hpv hpw hframe.1)
  have hpage := page_of_indices (.inl hv) (.inl hw) hpath hlast
  have hplace := hframe.2
  rw [PAGE_SIZE] at *
  omega

/-- The next bytes of a page are the next bytes of its frame. -/
theorem pgtableKva_add {i : ℕ} (h : s.pgtableKva root v = some k) (hi : v % PAGE_SIZE + i < PAGE_SIZE) :
    s.pgtableKva root (v + i) = some (k + i) := by
  obtain ⟨hp, rfl⟩ := pgtableKva_eq_some_iff.mp h
  have hpage : (v + i) / PAGE_SIZE = v / PAGE_SIZE := by
    rw [PAGE_SIZE] at *
    omega
  have hplace : (v + i) % PAGE_SIZE = v % PAGE_SIZE + i := by
    rw [PAGE_SIZE] at *
    omega
  rw [pgtableKva_eq_some_iff, leafOf_page s root hpage, hplace, Nat.add_assoc]
  exact ⟨hp, rfl⟩

/-- The bytes at addresses from `lo` to `hi` were written, and nothing else was. -/
structure Within (s s' : PageMem) (root lo hi : ℕ) : Prop where
  space : UserSpace s' root
  leaf : ∀ v, s'.leafOf root v = s.leafOf root v
  pool : s'.pool = s.pool
  rest : ∀ k, (∀ va, lo ≤ va → va < hi → s.pgtableKva root va ≠ some k) → peek s' k = peek s k

theorem Within.refl (hs : UserSpace s root) (lo hi : ℕ) : Within s s root lo hi := ⟨hs, fun _ => rfl, rfl, fun _ _ => rfl⟩

theorem Within.kva (h : Within s s' root lo hi) (v : ℕ) : s'.pgtableKva root v = s.pgtableKva root v := by
  rw [pgtableKva_eq, pgtableKva_eq, h.leaf]

theorem Within.trans {lo' hi' : ℕ} (h : Within s s' root lo hi) (h' : Within s' s'' root lo' hi') :
    Within s s'' root (min lo lo') (max hi hi') := by
  refine ⟨h'.space, fun v => (h'.leaf v).trans (h.leaf v), h'.pool.trans h.pool, fun k hk => ?_⟩
  rw [h'.rest k fun va hlo hhi => ?_, h.rest k fun va hlo hhi => hk va (by omega) (by omega)]
  rw [h.kva]
  exact hk va (by omega) (by omega)

theorem Within.mono {lo' hi' : ℕ} (h : Within s s' root lo hi) (hlo : lo' ≤ lo) (hhi : hi ≤ hi') :
    Within s s' root lo' hi' :=
  ⟨h.space, h.leaf, h.pool, fun k hk => h.rest k fun va hl hr => hk va (by omega) (by omega)⟩

/-- The other bytes of the task are as they were. -/
theorem Within.outside (h : Within s s' root lo hi) (hs : UserSpace s root) (hhi : hi ≤ 2 ^ 47) (hv : v < 2 ^ 47)
    (hout : v < lo ∨ hi ≤ v) : userByte s' root v = userByte s root v := by
  rw [userByte, userByte, h.kva]
  cases hk : s.pgtableKva root v with
  | none => rfl
  | some k =>
    refine congrArg some (h.rest k fun va hlo hhi' hva => ?_)
    have heq := hs.kva_inj hv (by omega) hk hva
    omega

/-- The bytes from an address on. -/
def Holds (s : PageMem) (root uva : ℕ) (bs : List UInt8) : Prop :=
  ∀ i (h : i < bs.length), userByte s root (uva + i) = some bs[i]

theorem Holds.kept (h : Holds s root uva bs) (hs : UserSpace s root) (hw : Within s s' root lo hi)
    (hhi : hi ≤ 2 ^ 47) (hfits : uva + bs.length ≤ 2 ^ 47) (hout : uva + bs.length ≤ lo ∨ hi ≤ uva) :
    Holds s' root uva bs := by
  intro i hi
  rw [hw.outside hs hhi (by omega) (by omega)]
  exact h i hi

theorem Holds.append {cs : List UInt8} (h : Holds s root uva bs) (h' : Holds s root (uva + bs.length) cs) :
    Holds s root uva (bs ++ cs) := by
  intro i hi
  by_cases hin : i < bs.length
  · rw [h i hin, List.getElem_append_left hin]
  · have hplace : uva + i = uva + bs.length + (i - bs.length) := by omega
    rw [List.length_append] at hi
    rw [hplace, h' (i - bs.length) (by omega), List.getElem_append_right (by omega)]

/-- The contents of a frame that is no table do not matter to the address space. -/
theorem OnlyFrame.userSpace {frame : ℕ} (h : OnlyFrame frame s s') (hs : UserSpace s root)
    (hframe : ¬Reached TablePath s root frame) :
    UserSpace s' root ∧ ∀ v, s'.leafOf root v = s.leafOf root v := by
  obtain ⟨hok, hleaf, -⟩ := h.loadOk hs.ok hframe
  refine ⟨⟨hok, fun v w hv hw hpv hpw => ?_⟩, hleaf⟩
  rw [hleaf] at hpv hpw
  rw [hleaf, hleaf]
  exact hs.sole v w hv hw hpv hpw

/-- **A copy to the frame of a page** writes the bytes of the page. -/
theorem UserSpace.pokeBytes (hs : UserSpace s root) (bs : List UInt8) (huva : uva < 2 ^ 47)
    (hk : s.pgtableKva root uva = some k) (hroom : uva % PAGE_SIZE + bs.length ≤ PAGE_SIZE) :
    Within s (pokeBytes s k bs) root uva (uva + bs.length) ∧ Holds (pokeBytes s k bs) root uva bs := by
  obtain ⟨hp, hplace⟩ := pgtableKva_eq_some_iff.mp hk
  have haligned := tableOf_aligned (s.leafOf root uva)
  have hlt := Nat.mod_lt uva (show 0 < PAGE_SIZE by decide)
  obtain ⟨htable, -⟩ := hs.ok.leaves uva (userTablePath_tablePath (tableIndex_user huva)) hp
  have honly : OnlyFrame (tableOf (s.leafOf root uva)) s (Proc.pokeBytes s k bs) :=
    onlyFrame_pokeBytes s haligned (by omega) (by omega)
  obtain ⟨hspace, hleaf⟩ := honly.userSpace hs htable
  have hkva : ∀ i < bs.length, s.pgtableKva root (uva + i) = some (k + i) :=
    fun i hi => pgtableKva_add hk (by omega)
  refine ⟨⟨hspace, hleaf, honly.pool, fun a ha => ?_⟩, fun i hi => ?_⟩
  · apply peek_pokeBytes_outside
    by_contra hin
    have hsame : k + (a - k) = a := by omega
    have hva : s.pgtableKva root (uva + (a - k)) = some a := by rw [hkva (a - k) (by omega), hsame]
    exact ha _ (by omega) (by omega) hva
  · rw [userByte, pgtableKva_eq, hleaf, ← pgtableKva_eq, hkva i hi]
    exact congrArg some (peek_pokeBytes_inside s k hi)

/-- **`ucopy`** writes its bytes, where pages are. -/
theorem ucopyLoop_spec {fuel : ℕ} (hs : UserSpace s root) (uva : ℕ) (src : List UInt8) (hfuel : src.length ≤ fuel)
    (hfits : uva + src.length ≤ 2 ^ 47)
    (hmapped : ∀ va, uva ≤ va → va < uva + src.length → s.pgtableKva root va ≠ none) :
    ∃ s', ucopyLoop root fuel uva src s = some s' ∧ Within s s' root uva (uva + src.length) ∧
      Holds s' root uva src := by
  induction fuel generalizing uva src s with
  | zero =>
    obtain rfl := List.length_eq_zero_iff.mp (Nat.le_zero.mp hfuel)
    exact ⟨s, rfl, Within.refl hs _ _, fun i hi => absurd hi (Nat.not_lt_zero i)⟩
  | succ fuel ih =>
    rw [ucopyLoop]
    by_cases hnil : src = []
    · subst hnil
      exact ⟨s, if_pos rfl, Within.refl hs _ _, fun i hi => absurd hi (Nat.not_lt_zero i)⟩
    · rw [if_neg hnil]
      have hpos : 0 < src.length := List.length_pos_iff.mpr hnil
      obtain ⟨k, hk⟩ := Option.ne_none_iff_exists'.mp (hmapped uva le_rfl (by omega))
      rw [hk]
      simp only []
      set chunk := min (PAGE_SIZE - uva % PAGE_SIZE) src.length with hchunk
      have hlt := Nat.mod_lt uva (show 0 < PAGE_SIZE by decide)
      have htake : (src.take chunk).length = chunk := List.length_take_of_le (Nat.min_le_right _ _)
      have hdrop : (src.drop chunk).length = src.length - chunk := List.length_drop
      have hle : chunk ≤ src.length := Nat.min_le_right _ _
      have hroom : chunk ≤ PAGE_SIZE - uva % PAGE_SIZE := Nat.min_le_left _ _
      have hone : 0 < chunk := by
        rw [hchunk]
        exact Nat.lt_min.mpr ⟨by omega, hpos⟩
      obtain ⟨hfirst, hheld⟩ := hs.pokeBytes (src.take chunk) (by omega) hk (by omega)
      rw [htake] at hfirst
      rw [Nat.mod_eq_of_lt (show uva + chunk < 2 ^ 64 by omega)]
      obtain ⟨s', hloop, hrest, hheld'⟩ := ih hfirst.space (uva + chunk) (src.drop chunk) (by omega)
        (by omega) fun va hlo hhi => by
          rw [hfirst.kva]
          exact hmapped va (by omega) (by omega)
      refine ⟨s', hloop, (hfirst.trans hrest).mono (by omega) (by omega), ?_⟩
      rw [← List.take_append_drop chunk src]
      refine Holds.append (hheld.kept hfirst.space hrest (by omega) (by omega) (by omega)) ?_
      rw [htake]
      exact hheld'

/-- **`vmm_alloc` in the user half** gives a page a frame of its own, and writes to tables and free frames only. -/
theorem UserSpace.vmmAlloc {frame : ℕ} (hs : UserSpace s root) (hv : UserAddr v)
    (hr : s.vmmAlloc root v userFlags = some (frame, s')) :
    UserSpace s' root ∧ present (s'.leafOf root v) = true ∧ tableOf (s'.leafOf root v) = frame ∧
      (∀ w, (tablePath w, tableIndex w 12) ≠ (tablePath v, tableIndex v 12) →
        s'.leafOf root w = s.leafOf root w) ∧
      (∀ w, UserAddr w → present (s.leafOf root w) = true → tableOf (s.leafOf root w) ≠ frame ∧
        s'.entry (tableOf (s.leafOf root w)) = s.entry (tableOf (s.leafOf root w))) := by
  have hpath := userTablePath_tablePath hv
  obtain ⟨hok, hpresent, hother, -, -⟩ := hs.ok.vmmAlloc hpath hr
  obtain ⟨pool, hpool, hmap⟩ := vmmAlloc_cases hr
  have hmem : frame ∈ s.pool := hpool ▸ List.mem_cons_self
  have hrest : ∀ u ∈ pool, u ∈ s.pool := fun u hu => hpool ▸ List.mem_cons_of_mem _ hu
  obtain ⟨htree, hframe, -, -⟩ := hs.ok.tree.take hpool
  obtain ⟨-, hself, -, -⟩ := htree.map_leaf hs.ok.sub hs.ok.closed hpath (by decide) (by decide) hmap
  obtain ⟨-, hgives⟩ := hframe.of_entry (by decide) (by decide) hself
  -- the frames of the pages were not free, so none of them is the new one
  have hapart : ∀ w, UserAddr w → present (s.leafOf root w) = true → tableOf (s.leafOf root w) ≠ frame := by
    intro w hw hp heq
    exact (hs.ok.leaves w (userTablePath_tablePath hw) hp).2 (heq ▸ hmem)
  refine ⟨⟨hok, fun w x hw hx hpw hpx heq => ?_⟩, hpresent, hgives, hother, fun w hw hp => ⟨hapart w hw hp, ?_⟩⟩
  · by_cases hwv : (tablePath w, tableIndex w 12) = (tablePath v, tableIndex v 12)
    · by_cases hxv : (tablePath x, tableIndex x 12) = (tablePath v, tableIndex v 12)
      · rw [hwv, hxv]
      · rw [leafOf_cell s' root hwv, hgives, hother x hxv] at heq
        rw [hother x hxv] at hpx
        exact absurd heq.symm (hapart x hx hpx)
    · by_cases hxv : (tablePath x, tableIndex x 12) = (tablePath v, tableIndex v 12)
      · rw [leafOf_cell s' root hxv, hgives, hother w hwv] at heq
        rw [hother w hwv] at hpw
        exact absurd heq (hapart w hw hpw)
      · rw [hother w hwv] at hpw heq
        rw [hother x hxv] at hpx heq
        exact hs.sole w x hw hx hpw hpx heq
  · obtain ⟨htable, hfree⟩ := hs.ok.leaves w (userTablePath_tablePath hw) hp
    exact htree.pgtableMap_rest (Follows.closed _ 3) hs.ok.sub hs.ok.closed hpath (by decide) (by decide) hmap htable
      fun hu => hfree (hrest _ hu)

/-- The frame of a byte decides about it. -/
theorem peek_congr (h : s'.entry (k / PAGE_SIZE * PAGE_SIZE) = s.entry (k / PAGE_SIZE * PAGE_SIZE)) :
    peek s' k = peek s k := by
  rw [peek, peek, h]

/-- A cleared frame with bytes at its beginning. -/
theorem peek_filled {frame i : ℕ} (s : PageMem) (haligned : frame % PAGE_SIZE = 0) (hi : i < PAGE_SIZE) :
    peek (pokeBytes (clearFrame s frame) frame bs) (frame + i) = bs.getD i 0 := by
  by_cases hin : i < bs.length
  · rw [peek_pokeBytes_inside _ _ hin, List.getD_eq_getElem _ _ hin]
  · have hframe : (frame + i) / PAGE_SIZE * PAGE_SIZE = frame := by
      rw [PAGE_SIZE] at *
      omega
    rw [peek_pokeBytes_outside _ (.inr (by omega)), peek_clearFrame_inside _ hframe,
      List.getD_eq_default _ _ (by omega)]

/-- **A page of the user half is mapped and filled**: it holds the bytes and zeros behind them, and the other pages hold
what they held. -/
theorem UserSpace.page {frame : ℕ} (hs : UserSpace s root) (hv : UserAddr v) (hbs : bs.length ≤ PAGE_SIZE)
    (hr : s.vmmAlloc root v userFlags = some (frame, s')) :
    UserSpace (Proc.pokeBytes (clearFrame s' frame) frame bs) root ∧
      (∀ w, (tablePath w, tableIndex w 12) = (tablePath v, tableIndex v 12) →
        userByte (Proc.pokeBytes (clearFrame s' frame) frame bs) root w = some (bs.getD (w % PAGE_SIZE) 0)) ∧
      ∀ w, UserAddr w → (tablePath w, tableIndex w 12) ≠ (tablePath v, tableIndex v 12) →
        userByte (Proc.pokeBytes (clearFrame s' frame) frame bs) root w = userByte s root w := by
  obtain ⟨hspace, hpresent, hgives, hother, hapart⟩ := hs.vmmAlloc hv hr
  have haligned : frame % PAGE_SIZE = 0 := hgives ▸ tableOf_aligned _
  have hnot : ¬Reached TablePath s' root frame :=
    hgives ▸ (hspace.ok.leaves v (userTablePath_tablePath hv) hpresent).1
  have honly : OnlyFrame frame s' (Proc.pokeBytes (clearFrame s' frame) frame bs) :=
    (onlyFrame_clearFrame s' frame).trans (onlyFrame_pokeBytes _ haligned le_rfl (by omega))
  obtain ⟨hspace', hleaf⟩ := honly.userSpace hspace hnot
  refine ⟨hspace', fun w hcell => ?_, fun w hw hcell => ?_⟩
  · have hsame := leafOf_cell s' root hcell
    have hkva : (Proc.pokeBytes (clearFrame s' frame) frame bs).pgtableKva root w = some (frame + w % PAGE_SIZE) := by
      rw [pgtableKva_eq_some_iff, hleaf, hsame, hgives]
      exact ⟨hpresent, rfl⟩
    rw [userByte, hkva]
    exact congrArg some (peek_filled s' haligned (Nat.mod_lt w (by decide)))
  · have hsame : (Proc.pokeBytes (clearFrame s' frame) frame bs).pgtableKva root w = s.pgtableKva root w := by
      rw [pgtableKva_eq, pgtableKva_eq, hleaf, hother w hcell]
    rw [userByte, userByte, hsame]
    cases hk : s.pgtableKva root w with
    | none => rfl
    | some k =>
      obtain ⟨hp, rfl⟩ := pgtableKva_eq_some_iff.mp hk
      obtain ⟨hne, hentry⟩ := hapart w hw hp
      have hplace : (tableOf (s.leafOf root w) + w % PAGE_SIZE) / PAGE_SIZE * PAGE_SIZE = tableOf (s.leafOf root w) := by
        have hal := tableOf_aligned (s.leafOf root w)
        have hlt := Nat.mod_lt w (show 0 < PAGE_SIZE by decide)
        rw [PAGE_SIZE] at *
        omega
      refine congrArg some (peek_congr ?_)
      rw [hplace, honly.other _ hne, hentry]

/-- The entries of two addresses of the user half are one exactly when their pages are. -/
theorem cell_eq_iff (hv : v < 2 ^ 47) (hw : w < 2 ^ 47) :
    (tablePath w, tableIndex w 12) = (tablePath v, tableIndex v 12) ↔ w / PAGE_SIZE = v / PAGE_SIZE := by
  constructor
  · intro h
    obtain ⟨hpath, hlast⟩ := Prod.mk.inj h
    exact page_of_indices (.inl hv) (.inl hw) hpath hlast
  · intro h
    obtain ⟨a39, a30, a21, a12⟩ := tableIndex_page w
    obtain ⟨b39, b30, b21, b12⟩ := tableIndex_page v
    rw [h] at a39 a30 a21 a12
    rw [tablePath, tablePath, ← a39, ← a30, ← a21, ← a12, b39, b30, b21, b12]

/-- A page is there. -/
def Mapped (s : PageMem) (root v : ℕ) : Prop := userByte s root v ≠ none

theorem mapped_iff : Mapped s root v ↔ s.pgtableKva root v ≠ none := by
  rw [Mapped, userByte, ne_eq, Option.map_eq_none_iff]

theorem UserSpace.page_keeps {frame : ℕ} (hs : UserSpace s root) (hv : UserAddr v) (hbs : bs.length ≤ PAGE_SIZE)
    (hr : s.vmmAlloc root v userFlags = some (frame, s')) (hw : UserAddr w) (hmapped : Mapped s root w) :
    Mapped (Proc.pokeBytes (clearFrame s' frame) frame bs) root w := by
  obtain ⟨-, hin, hout⟩ := hs.page hv hbs hr
  by_cases hcell : (tablePath w, tableIndex w 12) = (tablePath v, tableIndex v 12)
  · rw [Mapped, hin w hcell]
    exact Option.some_ne_none _
  · rw [Mapped, hout w hw hcell]
    exact hmapped

theorem UserSpace.page_mapped_iff {frame : ℕ} (hs : UserSpace s root) (hv : v < 2 ^ 47) (hbs : bs.length ≤ PAGE_SIZE)
    (hr : s.vmmAlloc root v userFlags = some (frame, s')) (hw : w < 2 ^ 47) :
    Mapped (Proc.pokeBytes (clearFrame s' frame) frame bs) root w ↔
      Mapped s root w ∨ w / PAGE_SIZE = v / PAGE_SIZE := by
  obtain ⟨-, hin, hout⟩ := hs.page (tableIndex_user hv) hbs hr
  rw [← cell_eq_iff hv hw]
  by_cases hcell : (tablePath w, tableIndex w 12) = (tablePath v, tableIndex v 12)
  · rw [Mapped, hin w hcell]
    exact ⟨fun _ => .inr hcell, fun _ => Option.some_ne_none _⟩
  · rw [Mapped, hout w (tableIndex_user hw) hcell]
    exact ⟨.inl, fun h => h.resolve_right hcell⟩

theorem ucopy_spec (hs : UserSpace s root) (lo : ℕ) (src : List UInt8) (hend : lo + src.length = hi) (hhi : hi ≤ 2 ^ 47)
    (hmapped : ∀ va, lo ≤ va → va < hi → Mapped s root va) :
    ∃ s', ucopy root lo src s = some s' ∧ Within s s' root lo hi ∧ Holds s' root lo src := by
  subst hend
  exact ucopyLoop_spec hs lo src le_rfl hhi fun va hlo hhi => mapped_iff.mp (hmapped va hlo hhi)

theorem Within.mapped_iff (h : Within s s' root lo hi) : Mapped s' root v ↔ Mapped s root v := by
  rw [Proc.mapped_iff, Proc.mapped_iff, h.kva]

/-! ### A new task -/

/-- The pages of the stack are in the user half. -/
theorem stackPage_lt {i : ℕ} (hi : i < USER_STACK_PAGES) : USER_STACK_BASE + i * PAGE_SIZE < 2 ^ 47 := by
  rw [USER_STACK_PAGES] at hi
  rw [USER_STACK_BASE, PAGE_SIZE]
  omega

theorem UserSpace.mapStack {is : List ℕ} (hs : UserSpace s root) (his : ∀ i ∈ is, i < USER_STACK_PAGES)
    (hr : mapStack root is s = some s') :
    UserSpace s' root ∧ ∀ w < 2 ^ 47, Mapped s' root w ↔
      Mapped s root w ∨ ∃ i ∈ is, w / PAGE_SIZE = (USER_STACK_BASE + i * PAGE_SIZE) / PAGE_SIZE := by
  induction is generalizing s with
  | nil =>
    obtain rfl := Option.some.inj hr
    exact ⟨hs, fun w _ => ⟨.inl, fun h => h.resolve_right fun ⟨i, hi, _⟩ => absurd hi List.not_mem_nil⟩⟩
  | cons i is ih =>
    have hi := stackPage_lt (his i List.mem_cons_self)
    have hempty : ([] : List UInt8).length ≤ PAGE_SIZE := Nat.zero_le _
    rw [Proc.mapStack] at hr
    cases halloc : s.vmmAlloc root (USER_STACK_BASE + i * PAGE_SIZE) userFlags with
    | none =>
      rw [halloc] at hr
      cases hr
    | some x =>
      obtain ⟨frame, s₁⟩ := x
      rw [halloc] at hr
      obtain ⟨hspace, -⟩ := hs.page (tableIndex_user hi) hempty halloc
      obtain ⟨hspace', hiff⟩ := ih hspace (fun j hj => his j (List.mem_cons_of_mem _ hj)) hr
      refine ⟨hspace', fun w hw => ?_⟩
      have hpage : Mapped (Proc.pokeBytes (clearFrame s₁ frame) frame []) root w ↔
          Mapped s root w ∨ w / PAGE_SIZE = (USER_STACK_BASE + i * PAGE_SIZE) / PAGE_SIZE :=
        hs.page_mapped_iff hi hempty halloc hw
      have hcons : (∃ j ∈ i :: is, w / PAGE_SIZE = (USER_STACK_BASE + j * PAGE_SIZE) / PAGE_SIZE) ↔
          w / PAGE_SIZE = (USER_STACK_BASE + i * PAGE_SIZE) / PAGE_SIZE ∨
            ∃ j ∈ is, w / PAGE_SIZE = (USER_STACK_BASE + j * PAGE_SIZE) / PAGE_SIZE := by
        simp only [List.mem_cons, or_and_right, exists_or, exists_eq_left]
      rw [hiff w hw, hpage, hcons, or_assoc]

/-- The address is one of the stack. -/
def OnStack (v : ℕ) : Prop := USER_STACK_BASE ≤ v ∧ v < userStackTop

/-- **The address space that `task_create` builds** has the pages of the stack and no others. -/
theorem userSpace_of_taskSpace {s₀ : PageMem} {kernelPml4 : ℕ} (hpool : s₀.FreshPool kernelPml4)
    (hr : taskSpace kernelPml4 s₀ = some (root, s)) :
    UserSpace s root ∧ ∀ w < 2 ^ 47, Mapped s root w ↔ OnStack w := by
  obtain ⟨s₁, hcreate, hstack⟩ := taskSpace_cases hr
  have hnone : ∀ v, UserAddr v → s₁.leafOf root v = 0 := fun v hv => leafOf_create hpool hcreate hv
  have habsent : ∀ v, UserAddr v → ¬present (s₁.leafOf root v) = true := by
    intro v hv
    rw [hnone v hv]
    decide
  have hs : UserSpace s₁ root := by
    refine ⟨⟨Follows.closed _ 3, fun _ h => h.tablePath, TreeOk.create hpool hcreate, fun v hv hp => ?_⟩,
      fun v w hv _ hp => absurd hp (habsent v hv)⟩
    exact absurd hp (habsent v (List.mem_range.mp hv.1))
  obtain ⟨hspace, hiff⟩ := hs.mapStack (fun i hi => List.mem_range.mp hi) hstack
  refine ⟨hspace, fun w hw => ?_⟩
  have hbefore : ¬Mapped s₁ root w := by
    rw [mapped_iff, pgtableKva_eq, hnone w (tableIndex_user hw)]
    exact not_not.mpr (kvaOfEntry_zero w)
  rw [hiff w hw, OnStack, userStackTop]
  constructor
  · rintro (h | ⟨i, hi, h⟩)
    · exact absurd h hbefore
    · have hi := List.mem_range.mp hi
      rw [USER_STACK_PAGES, USER_STACK_BASE, PAGE_SIZE] at *
      omega
  · intro h
    refine .inr ⟨(w - USER_STACK_BASE) / PAGE_SIZE, List.mem_range.mpr ?_, ?_⟩
    all_goals
      rw [USER_STACK_PAGES, USER_STACK_BASE, PAGE_SIZE] at *
      omega

end

end LizardOs.Proc
