import LizardOs.Proc.UserMemory

/-!
# The stack of a new program

`setup_user_stack` copies the strings of `argv` to the upper end of the stack and pushes a block of words below them.
Read upwards from the stack pointer, the words are the number of arguments, the addresses of the strings, and the ends
of `argv`, of the environment and of the auxiliary vector.  Everything lies within the stack, whatever the lengths of
the strings are, as long as they fit.
-/

namespace LizardOs.Proc

open LizardOs.Lib LizardOs.Mm LizardOs.Mm.PageMem

/-! ### Reading -/

section

variable {s s' : PageMem} {root uva : ℕ} {bs : List UInt8}

theorem userBytes_of_holds (h : Holds s root uva bs) : userBytes s root uva bs.length = some bs := by
  induction bs generalizing uva with
  | nil => rfl
  | cons b bs ih =>
    have hfirst : userByte s root uva = some b := h 0 (Nat.succ_pos _)
    have hrest : Holds s root (uva + 1) bs := by
      intro i hi
      rw [Nat.add_assoc, Nat.add_comm 1]
      exact h (i + 1) (Nat.succ_lt_succ hi)
    rw [List.length_cons, userBytes, hfirst, ih hrest]

theorem Holds.left {cs : List UInt8} (h : Holds s root uva (bs ++ cs)) : Holds s root uva bs := by
  intro i hi
  rw [h i (by rw [List.length_append]; omega), List.getElem_append_left hi]

theorem Holds.right {cs : List UInt8} (h : Holds s root uva (bs ++ cs)) : Holds s root (uva + bs.length) cs := by
  intro i hi
  rw [Nat.add_assoc, h (bs.length + i) (by rw [List.length_append]; omega),
    List.getElem_append_right (Nat.le_add_right _ _)]
  simp only [Nat.add_sub_cancel_left]

theorem leBytes_length (n v : ℕ) : (leBytes n v).length = n := by
  rw [leBytes, List.length_map, List.length_range]

/-- A word is read as it was written. -/
theorem field_leBytes {w : ℕ} (hw : w < 2 ^ 64) : field (leBytes 8 w) 0 8 = w := by
  have hbytes : leBytes 8 w = [leByte w 0, leByte w 1, leByte w 2, leByte w 3, leByte w 4, leByte w 5, leByte w 6,
    leByte w 7] := rfl
  rw [hbytes, field]
  simp only [List.drop_zero, List.take_succ_cons, List.take_nil, List.foldr_cons, List.foldr_nil, leByte_toNat]
  norm_num
  omega

theorem userWords_of_holds {ws : List ℕ} (h : Holds s root uva (ws.flatMap (leBytes 8))) (hws : ∀ w ∈ ws, w < 2 ^ 64) :
    userWords s root uva ws.length = some ws := by
  induction ws generalizing uva with
  | nil => rfl
  | cons w ws ih =>
    rw [List.flatMap_cons] at h
    have hfirst : userBytes s root uva 8 = some (leBytes 8 w) := by
      have hbytes := userBytes_of_holds h.left
      rwa [leBytes_length] at hbytes
    have hrest : Holds s root (uva + 8) (ws.flatMap (leBytes 8)) := by
      have hbytes := h.right
      rwa [leBytes_length] at hbytes
    rw [List.length_cons, userWords, hfirst, ih hrest fun x hx => hws x (List.mem_cons_of_mem _ hx)]
    simp only [field_leBytes (hws w List.mem_cons_self)]

theorem wordBytes_length (ws : List ℕ) : (ws.flatMap (leBytes 8)).length = 8 * ws.length := by
  induction ws with
  | nil => rfl
  | cons w ws ih =>
    rw [List.flatMap_cons, List.length_append, leBytes_length, ih, List.length_cons]
    omega

/-! ### Pushing -/

/-- A string and its end are at an address, between two others. -/
structure StringAt (s : PageMem) (root lo hi : ℕ) (str : List UInt8) (p : ℕ) : Prop where
  low : lo ≤ p
  high : p + str.length + 1 ≤ hi
  held : Holds s root p (str ++ [0])

theorem pushStrings_spec (hs : UserSpace s root) (strs : List (List UInt8)) (sp : ℕ) (hsp : sp ≤ 2 ^ 47)
    (hroom : stringRoom strs ≤ sp) (hmapped : ∀ va, sp - stringRoom strs ≤ va → va < sp → Mapped s root va) :
    ∃ argp s', pushStrings root strs sp s = some (sp - stringRoom strs, argp, s') ∧
      Within s s' root (sp - stringRoom strs) sp ∧
      List.Forall₂ (StringAt s' root (sp - stringRoom strs) sp) strs argp ∧
      (strs.zip argp).Pairwise fun x y => y.2 + y.1.length + 1 ≤ x.2 := by
  induction strs generalizing s sp with
  | nil => exact ⟨[], s, rfl, Within.refl hs _ _, .nil, .nil⟩
  | cons str strs ih =>
    have hcons : stringRoom (str :: strs) = str.length + 1 + stringRoom strs := List.sum_cons
    rw [hcons] at hroom hmapped ⊢
    have hlen : (str ++ [0]).length = str.length + 1 := List.length_append
    obtain ⟨s₁, hcopy, hfirst, hheld⟩ := ucopy_spec hs (sp - (str.length + 1)) (str ++ [0]) (by omega) hsp
      fun va hlo hhi => hmapped va (by omega) hhi
    obtain ⟨argp, s', hpush, hrest, hstrs, hpairs⟩ := ih hfirst.space (sp - (str.length + 1)) (by omega) (by omega)
      fun va hlo hhi => hfirst.mapped_iff.mpr (hmapped va (by omega) (by omega))
    have hbottom : sp - (str.length + 1) - stringRoom strs = sp - (str.length + 1 + stringRoom strs) := by omega
    rw [hbottom] at hpush hrest hstrs
    refine ⟨(sp - (str.length + 1)) :: argp, s', ?_, ?_, ?_, ?_⟩
    · rw [pushStrings, sub64_of_le (by omega) (by omega)]
      simp only [hcopy, hpush]
    · exact (hfirst.trans hrest).mono (by omega) (by omega)
    · refine .cons ⟨by omega, by omega, hheld.kept hfirst.space hrest (by omega) (by omega) (by omega)⟩ ?_
      exact hstrs.imp fun _ _ h => ⟨h.low, h.high.trans (by omega), h.held⟩
    · rw [List.zip_cons_cons, List.pairwise_cons]
      refine ⟨fun y hy => ?_, hpairs⟩
      -- the strings after this one are below it
      obtain ⟨i, hi, rfl⟩ := List.getElem_of_mem hy
      rw [List.length_zip] at hi
      rw [List.getElem_zip]
      exact (hstrs.get (by omega) (by omega)).high

theorem pushWords_spec (hs : UserSpace s root) (ws : List ℕ) (sp : ℕ) (hsp : sp ≤ 2 ^ 47) (hroom : 8 * ws.length ≤ sp)
    (hmapped : ∀ va, sp - 8 * ws.length ≤ va → va < sp → Mapped s root va) :
    ∃ s', pushWords root ws sp s = some (sp - 8 * ws.length, s') ∧ Within s s' root (sp - 8 * ws.length) sp ∧
      Holds s' root (sp - 8 * ws.length) (ws.reverse.flatMap (leBytes 8)) := by
  induction ws generalizing s sp with
  | nil => exact ⟨s, rfl, Within.refl hs _ _, fun i hi => absurd hi (Nat.not_lt_zero i)⟩
  | cons w ws ih =>
    rw [List.length_cons] at hroom hmapped ⊢
    have hlen : (leBytes 8 w).length = 8 := leBytes_length 8 w
    obtain ⟨s₁, hcopy, hfirst, hheld⟩ := ucopy_spec hs (sp - 8) (leBytes 8 w) (by omega) hsp
      fun va hlo hhi => hmapped va (by omega) hhi
    obtain ⟨s', hpush, hrest, hwords⟩ := ih hfirst.space (sp - 8) (by omega) (by omega)
      fun va hlo hhi => hfirst.mapped_iff.mpr (hmapped va (by omega) (by omega))
    have hbottom : sp - 8 - 8 * ws.length = sp - 8 * (ws.length + 1) := by omega
    rw [hbottom] at hpush hrest hwords
    refine ⟨s', ?_, (hfirst.trans hrest).mono (by omega) (by omega), ?_⟩
    · have hput : uput64 root (sp - 8) w s = some s₁ := hcopy
      rw [pushWords, sub64_of_le (by omega) (by omega)]
      simp only [hput, hpush]
    · rw [List.reverse_cons, List.flatMap_append]
      refine hwords.append ?_
      rw [wordBytes_length, List.length_reverse, List.flatMap_singleton]
      have hplace : sp - 8 * (ws.length + 1) + 8 * ws.length = sp - 8 := by omega
      rw [hplace]
      exact hheld.kept hfirst.space hrest (by omega) (by omega) (by omega)

/-- The room that arguments take: the strings up to the next multiple of 16, and an even number of words. -/
def stackRoom (argv : List (List UInt8)) : ℕ :=
  (stringRoom argv + 15) / 16 * 16 + 8 * (argv.length + 4 + argv.length % 2)

/-- What a program finds at its stack pointer: the number of arguments, the addresses of the strings, a null for the
end of `argv`, one for the environment and one for the auxiliary vector.  The strings are above these words, one
behind the other. -/
structure StartupBlock (s : PageMem) (pml4 rsp : ℕ) (argv : List (List UInt8)) (argp : List ℕ) : Prop where
  aligned : rsp % 16 = 0
  words : userWords s pml4 rsp (argv.length + 4) = some (argv.length :: argp ++ [0, 0, 0])
  strings : List.Forall₂ (fun str p => userBytes s pml4 p (str.length + 1) = some (str ++ [0]) ∧
    rsp + 8 * (argv.length + 4) ≤ p ∧ p + str.length + 1 ≤ userStackTop) argv argp
  apart : (argv.zip argp).Pairwise fun x y => x.2 + x.1.length + 1 ≤ y.2

/-- **`setup_user_stack`**, where the pages of the stack are there. -/
theorem setupUserStack_spec {argv : List (List UInt8)} (hs : UserSpace s root)
    (hstack : ∀ va, OnStack va → Mapped s root va)
    (hfit : stackRoom (argv.take MAX_ARGS) ≤ USER_STACK_PAGES * PAGE_SIZE) :
    ∃ rsp argp s', setupUserStack root userStackTop argv s = some (rsp, s') ∧ USER_STACK_BASE ≤ rsp ∧
      Within s s' root rsp userStackTop ∧ StartupBlock s' root rsp (argv.take MAX_ARGS) argp := by
  have htop : userStackTop = 0x700000040000 := by decide
  have hbase : USER_STACK_BASE = 0x700000000000 := rfl
  have hsize : USER_STACK_PAGES * PAGE_SIZE = 0x40000 := by decide
  set args := argv.take MAX_ARGS with hargs
  have hcount : args.length ≤ 32 := List.length_take_le _ _
  have hrev : stringRoom args.reverse = stringRoom args := by
    rw [stringRoom, List.map_reverse, List.sum_reverse]
    rfl
  rw [stackRoom, hsize] at hfit
  obtain ⟨argp, s₁, hpush, hfirst, hstrs, hpairs⟩ := pushStrings_spec hs args.reverse userStackTop
    (by omega) (by omega) fun va hlo hhi => hstack va ⟨by omega, hhi⟩
  rw [hrev] at hpush hfirst hstrs
  have hlen : argp.length = args.length := by
    rw [← hstrs.length_eq, List.length_reverse]
  -- where the words begin, above the block
  obtain ⟨sp, hsp⟩ : ∃ sp, (if args.length % 2 = 1 then sub64 ((userStackTop - stringRoom args) / 16 * 16) 8
      else (userStackTop - stringRoom args) / 16 * 16) = sp := ⟨_, rfl⟩
  have hplace : sp + (stringRoom args + 15) / 16 * 16 + 8 * (args.length % 2) = userStackTop := by
    rw [← hsp]
    split
    · rw [sub64_of_le (by omega) (by omega)]
      omega
    · omega
  have hwords : ([0, 0, 0] ++ argp ++ [args.length]).length = args.length + 4 := by
    rw [List.length_append, List.length_append, hlen, List.length_singleton]
    simp only [List.length_cons, List.length_nil]
    omega
  obtain ⟨s', hput, hrest, hheld⟩ := pushWords_spec hfirst.space ([0, 0, 0] ++ argp ++ [args.length]) sp
    (by omega) (by omega) fun va hlo hhi => hfirst.mapped_iff.mpr (hstack va ⟨by omega, by omega⟩)
  rw [hwords] at hput hrest hheld
  refine ⟨sp - 8 * (args.length + 4), argp.reverse, s', ?_, by omega, (hfirst.trans hrest).mono (by omega) (by omega),
    ?_, ?_, ?_, ?_⟩
  · rw [setupUserStack]
    simp only [← hargs, hpush, hsp]
    exact hput
  · omega
  · have hsmall : ∀ w ∈ args.length :: argp.reverse ++ [0, 0, 0], w < 2 ^ 64 := by
      intro w hw
      simp only [List.cons_append, List.mem_cons, List.mem_append, List.mem_reverse, List.not_mem_nil, or_false] at hw
      rcases hw with rfl | hw | rfl | rfl | rfl
      · omega
      · obtain ⟨i, hi, rfl⟩ := List.getElem_of_mem hw
        have hhigh := (hstrs.get (by rw [List.length_reverse]; omega) hi).high
        simp only [List.get_eq_getElem] at hhigh
        omega
      all_goals decide
    have hreverse : ([0, 0, 0] ++ argp ++ [args.length]).reverse = args.length :: argp.reverse ++ [0, 0, 0] := by
      simp
    rw [hreverse] at hheld
    have hread := userWords_of_holds hheld hsmall
    have hreadlen : (args.length :: argp.reverse ++ [0, 0, 0]).length = args.length + 4 := by
      rw [← hreverse, List.length_reverse, hwords]
    rwa [hreadlen] at hread
  · rw [← List.forall₂_reverse_iff, List.reverse_reverse]
    refine hstrs.imp fun str p h => ?_
    have hlow := h.low
    have hhigh := h.high
    have hlast : (str ++ [0]).length = str.length + 1 := List.length_append
    have hbytes := userBytes_of_holds
      (h.held.kept hfirst.space hrest (by omega) (by omega) (.inr (by omega)))
    rw [hlast] at hbytes
    exact ⟨hbytes, by omega, hhigh⟩
  · have hzip : args.zip argp.reverse = (args.reverse.zip argp).reverse := by
      have hzips : (args.reverse.zip argp).reverse = args.reverse.reverse.zip argp.reverse :=
        List.reverse_zipWith (by rw [List.length_reverse, hlen])
      rw [hzips, List.reverse_reverse]
    rw [hzip, List.pairwise_reverse]
    exact hpairs

/-! ### A program's stack -/

theorem UserSpace.loadPages {f : ImageFile} {ph : Phdr} {fuel j : ℕ} {ok : Bool} {pages : List ℕ}
    (hs : UserSpace s root) (hr : loadPages f root ph fuel j s = some (ok, pages, s'))
    (huser : ∀ v ∈ pages, UserAddr v) :
    UserSpace s' root ∧ ∀ w, UserAddr w → Mapped s root w → Mapped s' root w := by
  induction fuel generalizing j s pages with
  | zero => cases hr
  | succ fuel ih =>
    obtain ⟨-, -, -, rfl⟩ | ⟨-, frame, s₁, halloc, hround⟩ := loadPages_round hr
    · exact ⟨hs, fun _ _ h => h⟩
    · have hbytes := content_length f ph j
      obtain ⟨-, -, rfl, rfl⟩ | ⟨-, more, rfl, hrec⟩ := hround
      · have hv := huser _ List.mem_cons_self
        exact ⟨(hs.page hv hbytes halloc).1, fun w hw => hs.page_keeps hv hbytes halloc hw⟩
      · have hv := huser _ List.mem_cons_self
        obtain ⟨hspace, hkeeps⟩ := ih (hs.page hv hbytes halloc).1 hrec fun v hv => huser v (List.mem_cons_of_mem _ hv)
        exact ⟨hspace, fun w hw hmapped => hkeeps w hw (hs.page_keeps hv hbytes halloc hw hmapped)⟩

/-- Segments in the user half keep the address space in order, and the pages that are there. -/
theorem UserSpace.loadSegments {f : ImageFile} {phdrs : List Phdr} {ok : Bool} {pages : List ℕ}
    (hs : UserSpace s root) (hr : loadSegments f root phdrs s = some (ok, pages, s'))
    (huser : ∀ v ∈ pages, UserAddr v) :
    UserSpace s' root ∧ ∀ w, UserAddr w → Mapped s root w → Mapped s' root w := by
  induction phdrs generalizing s pages with
  | nil =>
    obtain ⟨-, -, rfl⟩ : true = ok ∧ [] = pages ∧ s = s' := by
      simpa only [Proc.loadSegments, Option.some.injEq, Prod.mk.injEq] using hr
    exact ⟨hs, fun _ _ h => h⟩
  | cons ph rest ih =>
    obtain ⟨-, hrest⟩ | ⟨-, ⟨-, -, -, rfl⟩ | ⟨-, ok₁, pages₁, s₁, hseg, hround⟩⟩ := loadSegments_round hr
    · exact ih hs hrest huser
    · exact ⟨hs, fun _ _ h => h⟩
    · obtain ⟨-, -, rfl, rfl⟩ | ⟨-, more, rfl, hrest⟩ := hround
      · exact hs.loadPages hseg huser
      · obtain ⟨hfirst, hmore⟩ := List.forall_mem_append.mp huser
        obtain ⟨hspace, hkeeps⟩ := hs.loadPages hseg hfirst
        obtain ⟨hspace', hkeeps'⟩ := ih hspace hrest hmore
        exact ⟨hspace', fun w hw hmapped => hkeeps' w hw (hkeeps w hw hmapped)⟩

/-- **The stack of a new program decodes to `argv`**: the block of words at `rsp` leads to the strings, all of it is
within the pages of the stack, and no other byte was written. -/
theorem setupUserStack_startup {f : ImageFile} {phdrs : List Phdr} {s₀ s₁ : PageMem} {kernelPml4 pml4 : ℕ}
    {pages : List ℕ} {argv : List (List UInt8)} (hpool : s₀.FreshPool kernelPml4)
    (hspace : taskSpace kernelPml4 s₀ = some (pml4, s₁))
    (hload : loadSegments f pml4 phdrs s₁ = some (true, pages, s)) (huser : ∀ v ∈ pages, UserAddr v)
    (hcount : argv.length ≤ MAX_ARGS) (hfit : stackRoom argv ≤ USER_STACK_PAGES * PAGE_SIZE) :
    ∃ rsp argp s', setupUserStack pml4 userStackTop argv s = some (rsp, s') ∧ StartupBlock s' pml4 rsp argv argp ∧
      USER_STACK_BASE ≤ rsp ∧ (∀ va, OnStack va → s'.pgtableKva pml4 va ≠ none) ∧
      (∀ va, s'.pgtableKva pml4 va = s.pgtableKva pml4 va) ∧
      ∀ k, (∀ va, rsp ≤ va → va < userStackTop → s.pgtableKva pml4 va ≠ some k) → peek s' k = peek s k := by
  have htop : userStackTop = 0x700000040000 := by decide
  obtain ⟨hs₁, hmapped⟩ := userSpace_of_taskSpace hpool hspace
  obtain ⟨hs, hkeeps⟩ := hs₁.loadSegments hload huser
  have hstack : ∀ va, OnStack va → Mapped s pml4 va := by
    intro va hva
    have hlow : va < 2 ^ 47 := by
      have hhigh := hva.2
      omega
    exact hkeeps va (tableIndex_user hlow) ((hmapped va hlow).mpr hva)
  have htake : argv.take MAX_ARGS = argv := List.take_of_length_le hcount
  obtain ⟨rsp, argp, s', hsetup, hbase, hwithin, hblock⟩ := setupUserStack_spec hs hstack (by rw [htake]; exact hfit)
  rw [htake] at hblock
  refine ⟨rsp, argp, s', hsetup, hblock, hbase, fun va hva => ?_, hwithin.kva, hwithin.rest⟩
  rw [hwithin.kva]
  exact mapped_iff.mp (hstack va hva)

end

theorem setupUserStack_startup_twoStrings : ∃ pml4 s rsp argp s', taskSpace bootPml4 bootMem = some (pml4, s) ∧
    setupUserStack pml4 userStackTop [[0x61], [0x62, 0x63]] s = some (rsp, s') ∧
      StartupBlock s' pml4 rsp [[0x61], [0x62, 0x63]] argp := by
  obtain ⟨pml4, s, hspace, -⟩ := bootMem_taskSpace
  have hload : loadSegments (imageOf []) pml4 [] s = some (true, [], s) := rfl
  have hcount : ([[0x61], [0x62, 0x63]] : List (List UInt8)).length ≤ MAX_ARGS := by decide
  have hfit : stackRoom [[0x61], [0x62, 0x63]] ≤ USER_STACK_PAGES * PAGE_SIZE := by decide
  obtain ⟨rsp, argp, s', hsetup, hblock, -⟩ := setupUserStack_startup bootMem_freshPool hspace hload
    (fun v hv => absurd hv List.not_mem_nil) hcount hfit
  exact ⟨pml4, s, rsp, argp, s', hspace, hsetup, hblock⟩

end LizardOs.Proc
