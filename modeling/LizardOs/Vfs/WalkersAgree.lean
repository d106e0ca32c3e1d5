import LizardOs.Fat.Readdir
import LizardOs.Vfs.Sessions

/-!
# The two walks agree

`vfs_path_lookup` copies a path into a buffer and cuts it where the buffer is full; `vfs_lookup_parent` looks ahead for
the end of each component and refuses one that does not fit.  On a volume of short names nothing is found under a name
that fills the buffer, so both fail on such a component, and on all others they look up the same names in the same order
(`walkPath_iff_walkParent`).
-/

namespace LizardOs.Vfs

open LizardOs.Lib LizardOs.Fat

variable {φ ι : Type} {ops : FsOps φ ι}

namespace VfsState

/-! ### What a walk leaves alone -/

/-- A walk adds dentries, and leaves alone which of the others are linked or open. -/
structure Looked (s s' : VfsState φ ι) : Prop where
  root : s'.root = s.root
  files : s'.files = s.files
  fresh : s.fresh ≤ s'.fresh
  linked : ∀ e < s.fresh, e ∈ s'.linked ↔ e ∈ s.linked

section

variable {s s' s'' : VfsState φ ι} {held out : List ℕ} {d e p cur : ℕ} {n leaf path : Name} {x : Dentry ι}

theorem Looked.refl (s : VfsState φ ι) : Looked s s := ⟨rfl, rfl, le_rfl, fun _ _ => Iff.rfl⟩

theorem Looked.trans (h : Looked s s') (h' : Looked s' s'') : Looked s s'' :=
  ⟨h'.root.trans h.root, h'.files.trans h.files, h.fresh.trans h'.fresh,
    fun e he => (h'.linked e (Nat.lt_of_lt_of_le he h.fresh)).trans (h.linked e he)⟩

theorem dentryGet_looked (s : VfsState φ ι) (d : ℕ) : Looked s (s.dentryGet d) := by
  rw [dentryGet]
  split
  · exact .refl s
  · exact ⟨rfl, rfl, le_rfl, fun _ _ => Iff.rfl⟩

theorem dentryPut_looked (s : VfsState φ ι) (d : ℕ) : Looked s (s.dentryPut d) := by
  rw [dentryPut]
  split
  · exact .refl s
  · exact ⟨rfl, rfl, le_rfl, fun _ _ => Iff.rfl⟩

theorem setInode_looked (s : VfsState φ ι) (d : ℕ) (inode : Option ι) (fs : φ) : Looked s (s.setInode d inode fs) :=
  ⟨rfl, rfl, le_rfl, fun _ _ => Iff.rfl⟩

theorem dentryAlloc_looked {a : Option ℕ} (hr : s.dentryAlloc ops n = (a, s')) : Looked s s' := by
  cases a with
  | none =>
    rw [dentryAlloc_none hr]
    exact ⟨rfl, rfl, le_rfl, fun _ _ => Iff.rfl⟩
  | some d =>
    obtain ⟨-, hfresh, hlinked, hroot, hfiles, -⟩ := dentryAlloc_some hr
    exact ⟨hroot, hfiles, by omega, fun e _ => by rw [hlinked]⟩

/-- Linking a new dentry links none of the others. -/
theorem dentryAdd_looked (hr : s.dentryAlloc ops n = (some d, s')) (p : ℕ) (inode : Option ι) (fs : φ) :
    Looked s ((s'.setInode d inode fs).dentryAdd p d) := by
  obtain ⟨rfl, hfresh, hlinked, hroot, hfiles, -⟩ := dentryAlloc_some hr
  refine ⟨hroot, hfiles, ?_, fun e he => ?_⟩
  · show s.fresh ≤ s'.fresh
    omega
  · show e ∈ s'.linked ++ [s.fresh] ↔ _
    rw [List.mem_append, List.mem_singleton, hlinked]
    exact or_iff_left (by omega)

theorem vfsLookup_looked (s : VfsState φ ι) (p : ℕ) (n : Name) : Looked s (s.vfsLookup ops p n).2 := by
  cases hr : s.vfsLookup ops p n with
  | mk r s' =>
    obtain ⟨d, -, -, rfl⟩ | ⟨-, halloc⟩ | ⟨d, s₁, halloc, ⟨-, rfl | ⟨inode, fs, rfl⟩⟩ |
      ⟨i, lookup, inode, fs, -, -, -, rfl⟩⟩ := vfsLookup_cases hr
    · exact dentryGet_looked s d
    · exact dentryAlloc_looked halloc
    · exact (dentryAlloc_looked halloc).trans (dentryPut_looked s₁ d)
    · exact ((dentryAlloc_looked halloc).trans (setInode_looked s₁ d inode fs)).trans (dentryPut_looked _ d)
    · exact (dentryAdd_looked halloc p inode fs).trans (dentryGet_looked _ d)

theorem walkRel_looked : WalkRel fun s s' : VfsState φ ι => Looked s s' :=
  ⟨Looked.refl, Looked.trans, dentryGet_looked, dentryPut_looked⟩

theorem vfsPathLookup_looked (s : VfsState φ ι) (path : Name) : Looked s (s.vfsPathLookup ops path).2 :=
  walkRel_looked.vfsPathLookup (fun n _ s p => vfsLookup_looked s p n) s

theorem vfsLookupParent_looked (s : VfsState φ ι) (path : Name) : Looked s (s.vfsLookupParent ops path).2 :=
  walkRel_looked.vfsLookupParent (fun n _ _ s p => vfsLookup_looked s p n) s

/-- **The counts after a walk**: a dentry that was there has more references by those that are handed out. -/
theorem Balanced.refcountOf_looked (h : Balanced s held) (h' : Balanced s' (out ++ held)) (hl : Looked s s')
    (hx : s.dentries e = some x) : s'.refcountOf e = x.refcount + out.count e := by
  have hbefore := h.count e
  rw [refcountOf, hx] at hbefore
  have hbefore : x.refcount = s.cacheRef e + s.openOn e + held.count e := hbefore
  have hopen : s'.openOn e = s.openOn e := by rw [openOn, openOn, hl.files]
  have hcache : s'.cacheRef e = s.cacheRef e := by
    rw [cacheRef, cacheRef, hl.root]
    exact if_congr (or_congr_right (hl.linked e (h.lt_fresh hx))) rfl rfl
  rw [h'.count e, hopen, hcache, List.count_append]
  omega

theorem vfsPathLookup_refcountOf (h : Balanced s held) (path : Name) (hx : s.dentries e = some x) :
    (s.vfsPathLookup ops path).2.refcountOf e = x.refcount + (s.vfsPathLookup ops path).1.toList.count e := by
  have hl : Looked s (s.vfsPathLookup ops path).2 := vfsPathLookup_looked s path
  cases hr : s.vfsPathLookup ops path with
  | mk r s' =>
    rw [hr] at hl
    cases r with
    | none => exact h.refcountOf_looked (vfsPathLookup_none h hr).1 hl hx
    | some d => exact h.refcountOf_looked (vfsPathLookup_some h hr) hl hx

theorem vfsLookupParent_refcountOf (h : Balanced s held) (path : Name) (hx : s.dentries e = some x) :
    (s.vfsLookupParent ops path).2.refcountOf e =
      x.refcount + ((s.vfsLookupParent ops path).1.map Prod.fst).toList.count e := by
  have hl : Looked s (s.vfsLookupParent ops path).2 := vfsLookupParent_looked s path
  cases hr : s.vfsLookupParent ops path with
  | mk r s' =>
    rw [hr] at hl
    cases r with
    | none => exact h.refcountOf_looked (vfsLookupParent_none h hr) hl hx
    | some pl => exact h.refcountOf_looked (vfsLookupParent_some h hr).1 hl hx

/-- The lookup of the leaf adds the reference to what it finds. -/
theorem vfsLookup_refcountOf (h : Balanced s held) (hr : s.vfsLookupParent ops path = (some (p, leaf), s'))
    (hx : s.dentries e = some x) :
    (s'.vfsLookup ops p leaf).2.refcountOf e =
      x.refcount + ((s'.vfsLookup ops p leaf).1.toList ++ [p]).count e := by
  have hparent : Looked s (s.vfsLookupParent ops path).2 := vfsLookupParent_looked s path
  rw [hr] at hparent
  have hlast : Looked s' (s'.vfsLookup ops p leaf).2 := vfsLookup_looked s' p leaf
  obtain ⟨hb, hleaf, -⟩ := vfsLookupParent_some h hr
  cases hlookup : s'.vfsLookup ops p leaf with
  | mk r s'' =>
    rw [hlookup] at hlast
    cases r with
    | none =>
      have hb' : Balanced s'' ([p] ++ held) := (vfsLookup_none hb hlookup).1
      exact h.refcountOf_looked hb' (hparent.trans hlast) hx
    | some d =>
      obtain ⟨y, hy⟩ := hb.of_held List.mem_cons_self
      have hb' : Balanced s'' ([d, p] ++ held) := (vfsLookup_some hb (hb.lt_fresh hy) hleaf hlookup).1
      exact h.refcountOf_looked hb' (hparent.trans hlast) hx

/-! ### The names they look up -/

/-- A component of a path: a C string without slashes. -/
structure Component (c : Name) : Prop where
  ne_nil : c ≠ []
  slash : 47 ∉ c
  zero : 0 ∉ c

/-- A component that does not fit begins with a name that fills the buffer. -/
theorem pieces_of_long {c : Name} (hlen : NAME_MAX ≤ c.length) :
    ∃ rest, pieces c.length c = c.take (NAME_MAX - 1) :: rest := by
  cases hn : c.length with
  | zero =>
    rw [hn] at hlen
    exact absurd hlen (by decide)
  | succ k =>
    have hne : c ≠ [] := by
      rintro rfl
      cases hn
    exact ⟨_, by rw [pieces, if_neg hne]⟩

/-- A name that fills the buffer is not found. -/
theorem Short.vfsLookup_long {c : Name} (h : Short s) (hops : ShortNames ops) (hc : Component c)
    (hlen : NAME_MAX ≤ c.length) (cur : ℕ) : (s.vfsLookup ops cur (c.take (NAME_MAX - 1))).1 = none := by
  cases hr : s.vfsLookup ops cur (c.take (NAME_MAX - 1)) with
  | mk r s' =>
    cases r with
    | none => rfl
    | some d =>
      have hshort := h.of_vfsLookup hops (fun hmem => hc.slash (List.mem_of_mem_take hmem))
        (fun hmem => hc.zero (List.mem_of_mem_take hmem)) hr
      rw [List.length_take] at hshort
      omega

theorem walkParent_of_long {c : Name} (hlen : NAME_MAX ≤ c.length) (s : VfsState φ ι) (cur : ℕ) (cs : List Name) :
    (s.walkParent ops cur (c :: cs)).1 = none := by
  cases cs with
  | nil => rw [walkParent, if_pos hlen]
  | cons m ms =>
    rw [walkParent]
    · rw [if_pos hlen]
    · intro heq
      cases heq

/-- **The two walks over the same components.** -/
theorem walkPath_iff_walkParent {cs : List Name} (h : Short s) (hops : ShortNames ops) (hne : cs ≠ [])
    (hcs : ∀ c ∈ cs, Component c) :
    (s.walkPath ops cur (cs.flatMap fun c => pieces c.length c)).1 = some d ↔
      ∃ p leaf, (s.walkParent ops cur cs).1 = some (p, leaf) ∧
        ((s.walkParent ops cur cs).2.vfsLookup ops p leaf).1 = some d := by
  induction cs generalizing s cur with
  | nil => exact absurd rfl hne
  | cons c cs ih =>
    have hc := hcs c List.mem_cons_self
    rw [List.flatMap_cons]
    by_cases hlen : c.length < NAME_MAX
    · -- both look up the component itself
      rw [pieces_of_fits hc.ne_nil hlen, List.singleton_append]
      have hlookup := h.vfsLookup hops ⟨hlen, hc.slash⟩ cur
      cases cs with
      | nil =>
        rw [walkParent, if_neg (Nat.not_le_of_lt hlen), List.flatMap_nil, walkPath]
        constructor
        · intro hd
          refine ⟨cur, c, rfl, ?_⟩
          cases hr : s.vfsLookup ops cur c with
          | mk r s₁ =>
            rw [hr] at hd
            cases r with
            | none => cases hd
            | some next => exact hd
        · rintro ⟨p, leaf, hpl, hd⟩
          obtain ⟨rfl, rfl⟩ := Prod.mk.inj (Option.some.inj hpl)
          cases hr : s.vfsLookup ops cur c with
          | mk r s₁ =>
            rw [hr] at hd
            obtain rfl : r = some d := hd
            rfl
      | cons m ms =>
        rw [walkParent, if_neg (Nat.not_le_of_lt hlen), walkPath]
        · cases hr : s.vfsLookup ops cur c with
          | mk r s₁ =>
            rw [hr] at hlookup
            cases r with
            | none =>
              constructor
              · intro hd
                cases hd
              · rintro ⟨p, leaf, hpl, -⟩
                cases hpl
            | some next =>
              exact ih (hlookup.put cur) (List.cons_ne_nil m ms) fun k hk => hcs k (List.mem_cons_of_mem _ hk)
        · intro heq
          cases heq
    · -- one finds nothing under its first piece, the other refuses it
      have hlong := Nat.le_of_not_lt hlen
      obtain ⟨rest, hpieces⟩ := pieces_of_long hlong
      have hmiss := h.vfsLookup_long hops hc hlong cur
      have hfail : (s.walkPath ops cur (pieces c.length c ++ cs.flatMap fun c => pieces c.length c)).1 = none := by
        rw [hpieces, List.cons_append, walkPath]
        cases hr : s.vfsLookup ops cur (c.take (NAME_MAX - 1)) with
        | mk r s₁ =>
          rw [hr] at hmiss
          obtain rfl : r = none := hmiss
          rfl
      rw [hfail, walkParent_of_long hlong]
      constructor
      · intro hd
        cases hd
      · rintro ⟨p, leaf, hpl, -⟩
        cases hpl

/-- A C string has C strings as components. -/
theorem component_of_mem {c : Name} (hzero : 0 ∉ path) (hc : c ∈ components path) : Component c :=
  ⟨mem_components hc, (Vfs.mem_components hc).2, fun h0 => hzero (mem_of_mem_splitOn (List.mem_filter.mp hc).1 h0)⟩

/-- **The two walks on a path agree**: they find the same dentry, and a dentry that was there has more references by those
that they hand out. -/
structure WalksAgree (ops : FsOps φ ι) (s : VfsState φ ι) (path : Name) : Prop where
  found : ∀ d, (s.vfsPathLookup ops path).1 = some d ↔
    ∃ p leaf, (s.vfsLookupParent ops path).1 = some (p, leaf) ∧
      ((s.vfsLookupParent ops path).2.vfsLookup ops p leaf).1 = some d
  pathLookup : ∀ e x, s.dentries e = some x →
    (s.vfsPathLookup ops path).2.refcountOf e = x.refcount + (s.vfsPathLookup ops path).1.toList.count e
  lookupParent : ∀ e x, s.dentries e = some x →
    (s.vfsLookupParent ops path).2.refcountOf e =
      x.refcount + ((s.vfsLookupParent ops path).1.map Prod.fst).toList.count e
  leaf : ∀ p leaf, (s.vfsLookupParent ops path).1 = some (p, leaf) → ∀ e x, s.dentries e = some x →
    ((s.vfsLookupParent ops path).2.vfsLookup ops p leaf).2.refcountOf e =
      x.refcount + (((s.vfsLookupParent ops path).2.vfsLookup ops p leaf).1.toList ++ [p]).count e

/-- The two walks of an absolute path start at the root. -/
theorem vfsPathLookup_iff_vfsLookupParent (h : Short s) (hops : ShortNames ops) (hzero : 0 ∉ path)
    (habs : path.head? = some 47) (hne : components path ≠ []) :
    (s.vfsPathLookup ops path).1 = some d ↔
      ∃ p leaf, (s.vfsLookupParent ops path).1 = some (p, leaf) ∧
        ((s.vfsLookupParent ops path).2.vfsLookup ops p leaf).1 = some d := by
  have hpath : path ≠ [] := by
    rintro rfl
    cases habs
  rw [vfsPathLookup, if_neg hpath, vfsLookupParent, if_neg (not_not.mpr habs), if_neg hne, pathNames]
  exact walkPath_iff_walkParent (h.get s.root) hops hne fun c hc => component_of_mem hzero hc

end

end VfsState

/-- **The two walks agree in every session** over a FAT16 volume, on every absolute path that has a component. -/
theorem Session.walksAgree {v : Volume} {inode : ℕ} {s : Session Volume ℕ}
    (hrun : Reaches (fun s c s' => Session.exec fatOps s c = some s') (Session.start v inode) s) {path : Name}
    (hzero : 0 ∉ path) (habs : path.head? = some 47) (hne : VfsState.components path ≠ []) :
    VfsState.WalksAgree fatOps s.vfs path := by
  obtain ⟨hshort, leaked, hb⟩ := Session.Sound.run fatOps_shortNames hrun
  refine ⟨fun d => ?_, fun e x hx => ?_, fun e x hx => ?_, fun p leaf hpl e x hx => ?_⟩
  · exact VfsState.vfsPathLookup_iff_vfsLookupParent hshort fatOps_shortNames hzero habs hne
  · exact VfsState.vfsPathLookup_refcountOf hb path hx
  · exact VfsState.vfsLookupParent_refcountOf hb path hx
  · exact VfsState.vfsLookup_refcountOf hb (Prod.ext hpl rfl) hx

/-- The files `A` and `B`, after the file `C` was made. -/
def threeFiles : Session Volume ℕ :=
  ⟨VfsState.exec fatOps (VfsState.mounted (Volume.mounted twoFiles fun _ => ⟨0, 0⟩) 0) (.create [47, 67] 0), []⟩

/-- The path `/A//`. -/
theorem Session.walksAgree_threeFiles : VfsState.WalksAgree fatOps threeFiles.vfs [47, 65, 47, 47] := by
  have hrun : Reaches (fun s c s' => Session.exec fatOps s c = some s')
      (Session.start (Volume.mounted twoFiles fun _ => ⟨0, 0⟩) 0) threeFiles :=
    Reaches.start.next (show Session.exec fatOps _ (.call (.create [47, 67] 0)) = some threeFiles from rfl)
  exact Session.walksAgree hrun (by decide) rfl (by decide)

end LizardOs.Vfs
