import LizardOs.Fat.DirOps

/-!
# The directory tree

The directories of a volume are those reached from the root through entries in use; a directory is known by
its first cluster.  `Live` slots are the slots of these directories that hold an entry other than `.` and
`..`, and `WellFormed` is what the volume code relies on: every live entry heads a chain of its own.

The second half says how the tree follows from the directories' slots: a volume whose directories keep their
entries has the same tree, and one whose directories gain a single leaf has a tree with one more live slot.
-/

namespace LizardOs.Fat

open LizardOs.Lib

namespace Fat16

/-- The directory `d` lists an entry in use in the slot `loc`. -/
def Lists (fs : Fat16) (d : ℕ) (loc : DirLoc) : Prop :=
  ∃ l, fs.DirChain d l ∧ loc ∈ fs.live (fs.header.dirSlots d l)

/-- The directory `d` lists an entry other than `.` and `..` in the slot `loc`. -/
def Holds (fs : Fat16) (d : ℕ) (loc : DirLoc) : Prop :=
  fs.Lists d loc ∧ fat16IsDot (fs.entryAt loc) = false

/-- The first clusters of the directories in the tree. -/
inductive DirAt (fs : Fat16) : ℕ → Prop
  | root : DirAt fs 0
  | sub {d : ℕ} {loc : DirLoc} : DirAt fs d → fs.Holds d loc → isDir (fs.entryAt loc) = true →
      DirAt fs (fs.entryAt loc).cluster

/-- The slots of live entries. -/
def Live (fs : Fat16) (loc : DirLoc) : Prop := ∃ d, fs.DirAt d ∧ fs.Holds d loc

/-- **Well-formedness of a volume.**  Every live entry is empty or heads a chain of distinct clusters of the
volume closed by a non-zero mark, the chains of different entries are disjoint, and none of their clusters is
marked free. -/
structure WellFormed (fs : Fat16) : Prop where
  chains : ∀ loc, fs.Live loc →
    (fs.entryAt loc).cluster = 0 ∨ ∃ l, fs.Heads (fs.entryAt loc).cluster l
  apart : ∀ loc loc' l l', fs.Live loc → fs.Live loc' → loc ≠ loc' →
    fs.Heads (fs.entryAt loc).cluster l → fs.Heads (fs.entryAt loc').cluster l' → l.Disjoint l'
  used : ∀ loc l, fs.Live loc → fs.Heads (fs.entryAt loc).cluster l →
    ∀ c ∈ l, fs.fatAt c ≠ FAT16_FREE_CLUSTER

/-- Every entry behind an end marker satisfies `P`. -/
def AfterEnd (fs : Fat16) (P : Fat16Directory → Prop) (ls : List DirLoc) : Prop :=
  ls.Pairwise fun a b => fs.firstByte a = FAT16_DIR_ENTRY_END → P (fs.entryAt b)

/-- No entry in use behind an end marker. -/
def Tidy (fs : Fat16) (ls : List DirLoc) : Prop :=
  fs.AfterEnd (fun e => fat16EntryValid e = false) ls

instance (fs : Fat16) (P : Fat16Directory → Prop) [DecidablePred P] (ls : List DirLoc) :
    Decidable (fs.AfterEnd P ls) :=
  inferInstanceAs (Decidable (ls.Pairwise fun a b =>
    fs.firstByte a = FAT16_DIR_ENTRY_END → P (fs.entryAt b)))

instance (fs : Fat16) (ls : List DirLoc) : Decidable (fs.Tidy ls) :=
  inferInstanceAs (Decidable (fs.AfterEnd (fun e => fat16EntryValid e = false) ls))

end Fat16

/-! ### Slots of one directory -/

variable {fs fs' : Fat16} {d : ℕ} {l l' : List ℕ} {loc : DirLoc}

theorem mem_live {ls : List DirLoc} :
    loc ∈ fs.live ls ↔ loc ∈ fs.beforeEnd ls ∧ fat16EntryValid (fs.entryAt loc) = true :=
  List.mem_filter

theorem mem_of_mem_live {ls : List DirLoc} (h : loc ∈ fs.live ls) :
    loc ∈ ls ∧ fat16EntryValid (fs.entryAt loc) = true :=
  ⟨(List.takeWhile_prefix _).subset (mem_live.mp h).1, (mem_live.mp h).2⟩

/-- Where the end marker stands depends on the first bytes of the slots only. -/
theorem beforeEnd_of_firsts {ls : List DirLoc} (h : ∀ x ∈ ls, fs'.firstByte x = fs.firstByte x) :
    fs'.beforeEnd ls = fs.beforeEnd ls := by
  induction ls with
  | nil => rfl
  | cons x ls ih =>
    have hrest := ih fun y hy => h y (by simp [hy])
    simp only [Fat16.beforeEnd, List.takeWhile_cons, h x (by simp)] at hrest ⊢
    rw [hrest]

theorem valid_ne_end (h : fat16EntryValid (fs.entryAt loc) = true) :
    fs.firstByte loc ≠ FAT16_DIR_ENTRY_END := by
  rw [← Fat16.entryAt_first]
  exact first_ne_end_of_valid h

theorem reusable_invalid (h : fs.reusable loc = true) :
    fat16EntryValid (fs.entryAt loc) = false := by
  simp only [Fat16.reusable, Bool.or_eq_true, decide_eq_true_eq] at h
  rcases h with h | h
  · exact fat16EntryValid_of_end ((fs.entryAt_first loc).trans h)
  · exact fat16EntryValid_of_deleted ((fs.entryAt_first loc).trans h)

/-- In a tidy directory the live slots are those with a valid entry. -/
theorem mem_live_of_tidy {ls : List DirLoc} (ht : fs.Tidy ls) (hmem : loc ∈ ls)
    (hv : fat16EntryValid (fs.entryAt loc) = true) : loc ∈ fs.live ls := by
  rw [mem_live]
  refine ⟨?_, hv⟩
  induction ls with
  | nil => simp at hmem
  | cons a ls ih =>
    rw [Fat16.Tidy, Fat16.AfterEnd, List.pairwise_cons] at ht
    by_cases hend : fs.firstByte a = FAT16_DIR_ENTRY_END
    · rcases List.mem_cons.mp hmem with rfl | hmem
      · exact absurd hend (valid_ne_end hv)
      · rw [ht.1 loc hmem hend] at hv
        cases hv
    · have hcons : fs.beforeEnd (a :: ls) = a :: fs.beforeEnd ls := by
        simp [Fat16.beforeEnd, hend]
      rw [hcons]
      rcases List.mem_cons.mp hmem with rfl | hmem
      · exact List.mem_cons_self
      · exact List.mem_cons_of_mem _ (ih ht.2 hmem)

theorem Fat16.DirChain.unique (h : fs.DirChain d l) (h' : fs.DirChain d l') : l = l' := by
  rcases h with ⟨rfl, rfl⟩ | ⟨hd, t, hc⟩
  · rcases h' with ⟨-, rfl⟩ | ⟨hd, -⟩
    · rfl
    · exact absurd rfl hd
  · rcases h' with ⟨rfl, -⟩ | ⟨-, t', hc'⟩
    · exact absurd rfl hd
    · exact (hc.path.unique hc.ended hc'.path hc'.ended).1

theorem lists_iff_live (h : fs.DirChain d l) :
    fs.Lists d loc ↔ loc ∈ fs.live (fs.header.dirSlots d l) := by
  constructor
  · intro ⟨l', hl', hlive⟩
    rwa [hl'.unique h] at hlive
  · intro hlive
    exact ⟨l, h, hlive⟩

/-- What a tidy directory lists. -/
theorem lists_iff (hown : fs.Owns d l) (ht : fs.Tidy (fs.header.dirSlots d l)) :
    fs.Lists d loc ↔
      loc ∈ fs.header.dirSlots d l ∧ fat16EntryValid (fs.entryAt loc) = true := by
  rw [lists_iff_live hown.dirChain]
  exact ⟨mem_of_mem_live, fun h => mem_live_of_tidy ht h.1 h.2⟩

theorem holds_iff (hown : fs.Owns d l) (ht : fs.Tidy (fs.header.dirSlots d l)) :
    fs.Holds d loc ↔ loc ∈ fs.header.dirSlots d l ∧ fs.child loc = true := by
  simp only [Fat16.Holds, lists_iff hown ht, Fat16.child, Bool.and_eq_true, Bool.not_eq_true',
    and_assoc]

/-- The entries a directory lists, other than `.` and `..`. -/
def Fat16.children (fs : Fat16) (ls : List DirLoc) : List DirLoc :=
  (fs.live ls).filter fun loc => !fat16IsDot (fs.entryAt loc)

theorem holds_iff_children (h : fs.DirChain d l) :
    fs.Holds d loc ↔ loc ∈ fs.children (fs.header.dirSlots d l) := by
  simp only [Fat16.Holds, lists_iff_live h, Fat16.children, List.mem_filter, Bool.not_eq_true']

/-- The slots of the appended clusters come last. -/
theorem dirSlots_append {h : FatHeader} (hd : d ≠ 0) (m : List ℕ) :
    h.dirSlots d (l ++ m) = h.dirSlots d l ++ m.flatMap h.clusterSlots := by
  simp [FatHeader.dirSlots, hd]

theorem dirSlots_nodup (hs : fs.header.Sound) (hown : fs.Owns d l) :
    (fs.header.dirSlots d l).Nodup := by
  rcases hown with ⟨rfl, rfl⟩ | hheads
  · rw [FatHeader.dirSlots, if_pos rfl]
    exact regionSlots_nodup _ _ _
  · rw [FatHeader.dirSlots, if_neg hheads.head_ne_zero, List.nodup_flatMap]
    refine ⟨fun c _ => regionSlots_nodup _ _ _, ?_⟩
    apply List.Pairwise.imp_of_mem _ hheads.nodup
    intro a b ha hb hab x hxa hxb
    obtain ⟨h1, h2, -⟩ := (mem_clusterSlots hs).mp hxb
    exact clusterSlots_disjoint hs (hheads.min_le ha) (hheads.min_le hb) hab hxa
      (show x.lba - fs.header.clusterToLba b < fs.header.spc by omega) (by omega)

theorem Fat16.Owns.proper (hs : fs.header.Sound) (hown : fs.Owns d l)
    (hloc : loc ∈ fs.header.dirSlots d l) : loc.Proper fs.header :=
  dirSlots_proper hs (fun _ hc => hown.min_le hc) hloc

/-- What stands behind an end marker depends on the entries only. -/
theorem Fat16.AfterEnd.congr {P : Fat16Directory → Prop} {ls : List DirLoc} (ht : fs.AfterEnd P ls)
    (hent : ∀ x ∈ ls, fs'.entryAt x = fs.entryAt x) : fs'.AfterEnd P ls := by
  apply List.Pairwise.imp_of_mem _ ht
  intro a b ha hb hab hend
  rw [hent b hb]
  apply hab
  rw [← fs.entryAt_first, ← hent a ha, fs'.entryAt_first]
  exact hend

/-- **A slot is filled, rewritten or erased.**  The directory keeps its shape when the new entry is no end marker
and its slot is the first reusable one or stood before the end marker. -/
theorem Fat16.AfterEnd.setEntry {P : Fat16Directory → Prop} {ls : List DirLoc}
    {ent : Fat16Directory} (ht : fs.AfterEnd P ls) (hnd : ls.Nodup)
    (hp : ∀ x ∈ ls, x.Proper fs.header) (hloc : loc.Proper fs.header)
    (hfirst : ent.first ≠ FAT16_DIR_ENTRY_END)
    (hslot : ls.find? fs.reusable = some loc ∨ ¬P (fs.entryAt loc) ∨ loc ∉ ls) :
    (fs.setEntry loc ent).AfterEnd P ls := by
  have hself := fs.setEntry_entryAt_self loc ent
  have hother : ∀ x ∈ ls, x ≠ loc → (fs.setEntry loc ent).entryAt x = fs.entryAt x :=
    fun x hx hne => Fat16.setEntry_entryAt_ne hloc (hp x hx) hne ent
  have hfb : ∀ x ∈ ls, x ≠ loc → (fs.setEntry loc ent).firstByte x = fs.firstByte x := by
    intro x hx hne
    rw [← Fat16.entryAt_first, hother x hx hne, Fat16.entryAt_first]
  have hend : (fs.setEntry loc ent).firstByte loc ≠ FAT16_DIR_ENTRY_END := by
    rw [← Fat16.entryAt_first, hself]
    exact hfirst
  -- before the slot there is no end marker
  have hpre : ls.Pairwise fun a b => b = loc → fs.firstByte a ≠ FAT16_DIR_ENTRY_END := by
    rcases hslot with hfind | hv | hout
    · obtain ⟨-, pre, post, rfl, hpre⟩ := List.find?_eq_some_iff_append.mp hfind
      have hnpost : loc ∉ pre ∧ loc ∉ post := by
        rw [List.nodup_append, List.nodup_cons] at hnd
        exact ⟨fun h => hnd.2.2 loc h loc (by simp) rfl, hnd.2.1.1⟩
      have hpre' : ∀ a ∈ pre, fs.firstByte a ≠ FAT16_DIR_ENTRY_END := by
        intro a ha hea
        have := hpre a ha
        simp [Fat16.reusable, hea] at this
      rw [List.pairwise_append, List.pairwise_cons]
      refine ⟨?_, ⟨?_, ?_⟩, ?_⟩
      · apply List.Pairwise.imp_of_mem _ (List.nodup_append.mp hnd).1
        intro a b ha _ _ _
        exact hpre' a ha
      · intro b hb hbl
        exact absurd (hbl ▸ hb) hnpost.2
      · apply List.Pairwise.imp_of_mem _ (List.nodup_cons.mp (List.nodup_append.mp hnd).2.1).2
        intro a b _ hb _ hbl
        exact absurd (hbl ▸ hb) hnpost.2
      · intro a ha b _ _
        exact hpre' a ha
    · apply ht.imp
      intro a b hab hbl hea
      rw [hbl] at hab
      exact hv (hab hea)
    · apply List.Pairwise.imp_of_mem _ ht
      intro a b _ hb _ hbl
      exact absurd (hbl ▸ hb) hout
  apply List.Pairwise.imp_of_mem _ (ht.and hpre)
  intro a b ha hb hab hea
  by_cases hal : a = loc
  · rw [hal] at hea
    exact absurd hea hend
  · rw [hfb a ha hal] at hea
    by_cases hbl : b = loc
    · exact absurd hea (hab.2 hbl)
    · rw [hother b hb hbl]
      exact hab.1 hea

/-- Zero slots may be appended to a directory without a reusable slot, or filled. -/
theorem Fat16.AfterEnd.append_zero {P : Fat16Directory → Prop} {ls ms : List DirLoc}
    (ht : fs.AfterEnd P ls) (hms : ∀ x ∈ ms, fs.entryAt x = Fat16Directory.zero)
    (hzero : P Fat16Directory.zero) : fs.AfterEnd P (ls ++ ms) := by
  rw [Fat16.AfterEnd, List.pairwise_append]
  refine ⟨ht, ?_, ?_⟩
  · rw [List.pairwise_iff_forall_sublist]
    intro a b hab _
    rw [hms b (hab.subset (by simp))]
    exact hzero
  · intro a _ b hb _
    rw [hms b hb]
    exact hzero

/-! ### Trees with the same directories, and trees with one more leaf -/

/-- Directories that hold the same entries, up to what a file entry says besides its kind, make one tree. -/
theorem tree_same (hholds : ∀ e, fs.DirAt e → ∀ x, fs'.Holds e x ↔ fs.Holds e x)
    (hent : ∀ e x, fs.DirAt e → fs.Holds e x →
      isDir (fs'.entryAt x) = isDir (fs.entryAt x) ∧
      (isDir (fs.entryAt x) = true → (fs'.entryAt x).cluster = (fs.entryAt x).cluster)) :
    (∀ e, fs'.DirAt e ↔ fs.DirAt e) ∧ (∀ x, fs'.Live x ↔ fs.Live x) := by
  have hdir : ∀ e, fs'.DirAt e ↔ fs.DirAt e := by
    intro e
    constructor
    · intro h
      induction h with
      | root => exact .root
      | @sub f x _ hx hisdir ih =>
        have hx' := (hholds f ih x).mp hx
        obtain ⟨hk, hc⟩ := hent f x ih hx'
        rw [hk] at hisdir
        rw [hc hisdir]
        exact .sub ih hx' hisdir
    · intro h
      induction h with
      | root => exact .root
      | @sub f x hf hx hisdir ih =>
        obtain ⟨hk, hc⟩ := hent f x hf hx
        rw [← hc hisdir]
        exact .sub ih ((hholds f hf x).mpr hx) (hk.trans hisdir)
  refine ⟨hdir, fun x => ⟨?_, ?_⟩⟩
  · intro ⟨e, he, hx⟩
    exact ⟨e, (hdir e).mp he, (hholds e ((hdir e).mp he) x).mp hx⟩
  · intro ⟨e, he, hx⟩
    exact ⟨e, (hdir e).mpr he, (hholds e he x).mpr hx⟩

/-- **One more leaf.**  `fs'` holds what `fs` holds, and in the directory `e₀` the slot `x₀`; a directory
behind that slot is empty.  `P` bounds the directories of the smaller tree. -/
theorem tree_leaf {P : ℕ → Prop} {e₀ : ℕ} {x₀ : DirLoc} (h0 : P 0)
    (hP : ∀ e x, P e → fs.Holds e x → isDir (fs.entryAt x) = true → P (fs.entryAt x).cluster)
    (hholds : ∀ e, P e → ∀ x, fs'.Holds e x ↔ fs.Holds e x ∨ (e = e₀ ∧ x = x₀))
    (hent : ∀ e x, P e → fs.Holds e x → fs'.entryAt x = fs.entryAt x)
    (he₀ : P e₀) (hdir₀ : fs'.DirAt e₀ ∨ fs.DirAt e₀)
    (hleaf : isDir (fs'.entryAt x₀) = true → ∀ x, ¬fs'.Holds (fs'.entryAt x₀).cluster x) :
    (∀ e, fs'.DirAt e ↔
      fs.DirAt e ∨ (isDir (fs'.entryAt x₀) = true ∧ e = (fs'.entryAt x₀).cluster)) ∧
    (∀ x, fs'.Live x ↔ fs.Live x ∨ x = x₀) ∧ (∀ e, fs.DirAt e → P e) := by
  have hsub : ∀ e, fs.DirAt e → P e := by
    intro e h
    induction h with
    | root => exact h0
    | sub _ hx hisdir ih => exact hP _ _ ih hx hisdir
  have hup : ∀ e, fs.DirAt e → fs'.DirAt e := by
    intro e h
    induction h with
    | root => exact .root
    | @sub f x hf hx hisdir ih =>
      have heq := hent f x (hsub f hf) hx
      rw [← heq] at hisdir ⊢
      exact .sub ih ((hholds f (hsub f hf) x).mpr (.inl hx)) hisdir
  have hdir₀' : fs'.DirAt e₀ := by
    rcases hdir₀ with h | h
    · exact h
    · exact hup e₀ h
  have hx₀ : fs'.Holds e₀ x₀ := (hholds e₀ he₀ x₀).mpr (.inr ⟨rfl, rfl⟩)
  have hdown : ∀ e, fs'.DirAt e →
      fs.DirAt e ∨ (isDir (fs'.entryAt x₀) = true ∧ e = (fs'.entryAt x₀).cluster) := by
    intro e h
    induction h with
    | root => exact .inl .root
    | @sub f x _ hx hisdir ih =>
      rcases ih with hf | ⟨hisdir₀, rfl⟩
      · rcases (hholds f (hsub f hf) x).mp hx with hx | ⟨-, rfl⟩
        · left
          rw [hent f x (hsub f hf) hx] at hisdir ⊢
          exact .sub hf hx hisdir
        · exact .inr ⟨hisdir, rfl⟩
      · exact absurd hx (hleaf hisdir₀ x)
  refine ⟨fun e => ⟨hdown e, ?_⟩, fun x => ⟨?_, ?_⟩, hsub⟩
  · rintro (h | ⟨hisdir₀, rfl⟩)
    · exact hup e h
    · exact .sub hdir₀' hx₀ hisdir₀
  · intro ⟨e, he, hx⟩
    rcases hdown e he with hf | ⟨hisdir₀, rfl⟩
    · rcases (hholds e (hsub e hf) x).mp hx with hx | ⟨-, rfl⟩
      · exact .inl ⟨e, hf, hx⟩
      · exact .inr rfl
    · exact absurd hx (hleaf hisdir₀ x)
  · rintro (⟨e, he, hx⟩ | rfl)
    · exact ⟨e, hup e he, (hholds e (hsub e he) x).mpr (.inl hx)⟩
    · exact ⟨e₀, hdir₀', hx₀⟩

/-- Below an empty root there is nothing. -/
theorem Fat16.DirAt.eq_zero {e : ℕ} (h : fs.DirAt e) (hroot : ∀ x, ¬fs.Holds 0 x) : e = 0 := by
  induction h with
  | root => rfl
  | @sub f x _ hx _ ih =>
    rw [ih] at hx
    exact absurd hx (hroot x)

end LizardOs.Fat
