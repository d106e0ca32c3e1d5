import LizardOs.Vfs.Balance

/-!
# The lookups and the cache

`vfs_lookup` and the two loops over the components of a path.  A lookup only adds to the cache: what was linked stays
linked under the same name.  A walk that finds nothing leaves the names it was given out of the cache.
-/

namespace LizardOs.Vfs

variable {φ ι : Type} {ops : FsOps φ ι}

namespace VfsState

/-- What a lookup compares. -/
def key (s : VfsState φ ι) (c : ℕ) : Option (Option ℕ × Name) := (s.dentries c).map fun x => (x.parent, x.name)

/-- The links that were there are there still. -/
structure Grows (s s' : VfsState φ ι) : Prop where
  linked : s.linked <+: s'.linked
  key : ∀ c ∈ s.linked, s'.key c = s.key c
  root : s'.root = s.root

section

variable {s s' s'' : VfsState φ ι} {held : List ℕ} {c d p q : ℕ} {n : Name}

theorem childOf_eq (s : VfsState φ ι) (p : ℕ) (n : Name) :
    s.childOf p n = s.linked.find? fun c => decide (s.key c = some (some p, n)) := by
  rw [childOf]
  congr 1
  funext c
  rw [key]
  cases s.dentries c with
  | none => rfl
  | some x => simp only [Option.map_some, Option.some.injEq, Prod.mk.injEq]

theorem mem_of_childOf (h : s.childOf p n = some c) : c ∈ s.linked := List.mem_of_find?_eq_some h

theorem key_of_childOf (h : s.childOf p n = some c) : s.key c = some (some p, n) := by
  rw [childOf_eq] at h
  have hfound := List.find?_some h
  exact of_decide_eq_true hfound

theorem Grows.trans (h : Grows s s') (h' : Grows s' s'') : Grows s s'' :=
  ⟨h.linked.trans h'.linked, fun c hc => (h'.key c (h.linked.subset hc)).trans (h.key c hc), h'.root.trans h.root⟩

/-- A child that was found is found again. -/
theorem Grows.childOf (h : Grows s s') (hc : s.childOf p n = some c) : s'.childOf p n = some c := by
  obtain ⟨new, hnew⟩ := h.linked
  rw [childOf_eq] at hc ⊢
  have hsame : s.linked.find? (fun c => decide (s'.key c = some (some p, n))) = some c := by
    rw [← hc]
    exact List.find?_congr fun x hx => by rw [h.key x hx]
  rw [← hnew, List.find?_append, hsame]
  rfl

/-- The same links give the same children. -/
theorem childOf_of_same (hlinked : s'.linked = s.linked) (hkey : ∀ c ∈ s.linked, s'.key c = s.key c) (p : ℕ) (n : Name) :
    s'.childOf p n = s.childOf p n := by
  rw [childOf_eq, childOf_eq, hlinked]
  exact List.find?_congr fun x hx => by rw [hkey x hx]

theorem dentryGet_linked (s : VfsState φ ι) (d : ℕ) : (s.dentryGet d).linked = s.linked := by
  rw [dentryGet]
  split
  · rfl
  · rfl

theorem dentryGet_root (s : VfsState φ ι) (d : ℕ) : (s.dentryGet d).root = s.root := by
  rw [dentryGet]
  split
  · rfl
  · rfl

theorem dentryPut_root (s : VfsState φ ι) (d : ℕ) : (s.dentryPut d).root = s.root := by
  rw [dentryPut]
  split
  · rfl
  · rfl

theorem dentryPut_linked (s : VfsState φ ι) (d : ℕ) : (s.dentryPut d).linked = s.linked := by
  rw [dentryPut]
  split
  · rfl
  · rfl

theorem dentryGet_key (s : VfsState φ ι) (d c : ℕ) : (s.dentryGet d).key c = s.key c := by
  rw [dentryGet]
  cases hx : s.dentries d with
  | none => rfl
  | some x =>
    show (Function.update s.dentries d _ c).map _ = (s.dentries c).map _
    by_cases hcd : c = d
    · rw [hcd, Function.update_self, hx]
      rfl
    · rw [Function.update_of_ne hcd]

theorem dentryGet_grows (s : VfsState φ ι) (d : ℕ) : Grows s (s.dentryGet d) :=
  ⟨⟨[], by rw [List.append_nil, dentryGet_linked]⟩, fun c _ => dentryGet_key s d c, dentryGet_root s d⟩

/-- A linked dentry is not freed by dropping a reference that is held. -/
theorem Balanced.put_key (h : Balanced s (d :: held)) (hc : c ∈ s.linked) : (s.dentryPut d).key c = s.key c := by
  rw [dentryPut]
  cases hx : s.dentries d with
  | none => rfl
  | some x =>
    show (Function.update s.dentries d _ c).map _ = (s.dentries c).map _
    by_cases hcd : c = d
    · have hcount := h.count d
      rw [refcountOf, hx, List.count_cons_self, cacheRef, if_pos (.inr (hcd ▸ hc))] at hcount
      have hcount : x.refcount = 1 + s.openOn d + (held.count d + 1) := hcount
      rw [hcd, Function.update_self, if_neg (by omega), hx]
      rfl
    · rw [Function.update_of_ne hcd]

theorem Balanced.put_childOf (h : Balanced s (d :: held)) (p : ℕ) (n : Name) :
    (s.dentryPut d).childOf p n = s.childOf p n :=
  childOf_of_same (dentryPut_linked s d) (fun _ hc => h.put_key hc) p n

theorem Balanced.put_grows (h : Balanced s (d :: held)) : Grows s (s.dentryPut d) :=
  ⟨⟨[], by rw [List.append_nil, dentryPut_linked]⟩, fun _ hc => h.put_key hc, dentryPut_root s d⟩

theorem setInode_key (s : VfsState φ ι) (d : ℕ) (inode : Option ι) (fs : φ) (c : ℕ) :
    (s.setInode d inode fs).key c = s.key c := by
  show (Function.update s.dentries d _ c).map _ = (s.dentries c).map _
  by_cases hcd : c = d
  · rw [hcd, Function.update_self]
    cases s.dentries d with
    | none => rfl
    | some x => rfl
  · rw [Function.update_of_ne hcd]

/-- Linking a dentry that `dentry_alloc` gave: it is found under its parent, and has no children. -/
theorem Balanced.link {name : Name} (h : Balanced s held) (inode : Option ι) (fs : φ) (hp : p < s.fresh)
    (hn : name.length < NAME_MAX) (hchild : s.childOf p name = none)
    (halloc : s.dentryAlloc ops name = (some d, s')) :
    Balanced ((s'.setInode d inode fs).dentryAdd p d) held ∧ Grows s ((s'.setInode d inode fs).dentryAdd p d) ∧
      ((s'.setInode d inode fs).dentryAdd p d).childOf p name = some d ∧
      ∀ m, ((s'.setInode d inode fs).dentryAdd p d).childOf d m = none := by
  obtain ⟨hb, hd, hfresh, hlinked, hroot, hother, hself⟩ := h.alloc halloc
  set s₂ := s'.setInode d inode fs with hs₂
  have hx₂ : s₂.dentries d = some ⟨name.take (NAME_MAX - 1), none, inode, 1⟩ := by
    show Function.update s'.dentries d _ d = _
    rw [Function.update_self, hself]
    rfl
  have htake : name.take (NAME_MAX - 1) = name := List.take_of_length_le (by rw [NAME_MAX] at *; omega)
  have hnot : d ∉ s.linked := by
    intro hmem
    obtain ⟨x, hx⟩ := h.of_linked hmem
    have hlt := h.lt_fresh hx
    omega
  have hdroot : d ≠ s₂.root := by
    intro heq
    have hrootref : 0 < s.cacheRef s.root + s.openOn s.root + held.count s.root := by
      rw [cacheRef, if_pos (.inl rfl)]
      omega
    obtain ⟨x, hx⟩ := (h.allocated_iff s.root).mpr hrootref
    have hlt := h.lt_fresh hx
    have hsame : s₂.root = s.root := hroot
    omega
  have hb₂ : Balanced s₂ (d :: held) := hb.setInode hself inode fs
  have hb₃ : Balanced (s₂.dentryAdd p d) held := by
    refine hb₂.add hx₂ ?_ hdroot ?_
    · rw [show s₂.linked = s.linked from hlinked]
      exact hnot
    · rw [show s₂.fresh = s.fresh + 1 from hfresh]
      omega
  have hkey : ∀ c, c ≠ d → (s₂.dentryAdd p d).key c = s.key c := by
    intro c hc
    have hadd : (s₂.dentryAdd p d).key c = s₂.key c := by
      show (Function.update s₂.dentries d _ c).map _ = _
      rw [Function.update_of_ne hc]
      rfl
    rw [hadd, hs₂, setInode_key, key, hother c hc]
    rfl
  have hkeyd : (s₂.dentryAdd p d).key d = some (some p, name) := by
    show (Function.update s₂.dentries d _ d).map _ = _
    rw [Function.update_self, hx₂]
    show some (some p, name.take (NAME_MAX - 1)) = _
    rw [htake]
  have hlinks : (s₂.dentryAdd p d).linked = s.linked ++ [d] := by
    show s₂.linked ++ [d] = _
    rw [show s₂.linked = s.linked from hlinked]
  have hne : ∀ c ∈ s.linked, c ≠ d := fun c hc heq => hnot (heq ▸ hc)
  have hfind : ∀ q m, (s₂.dentryAdd p d).childOf q m =
      (s.childOf q m).or (if q = p ∧ m = name then some d else none) := by
    intro q m
    rw [childOf_eq, childOf_eq, hlinks, List.find?_append]
    congr 1
    · exact List.find?_congr fun c hc => by rw [hkey c (hne c hc)]
    · by_cases hqm : q = p ∧ m = name
      · rw [if_pos hqm, hqm.1, hqm.2]
        simp only [List.find?_cons, hkeyd, decide_true]
      · rw [if_neg hqm]
        have hfalse : ¬some (some p, name) = some (some q, m) := by
          intro heq
          simp only [Option.some.injEq, Prod.mk.injEq] at heq
          exact hqm ⟨heq.1.symm, heq.2.symm⟩
        simp only [List.find?_cons, hkeyd, decide_eq_false hfalse, List.find?_nil]
  refine ⟨hb₃, ⟨⟨[d], hlinks.symm⟩, fun c hc => hkey c (hne c hc), hroot⟩, ?_, fun m => ?_⟩
  · rw [hfind, hchild, if_pos ⟨rfl, rfl⟩]
    rfl
  · -- the number of the new dentry is nobody's parent
    have hnone : s.childOf d m = none := by
      cases hc : s.childOf d m with
      | none => rfl
      | some c =>
        have hkc := key_of_childOf hc
        rw [key] at hkc
        obtain ⟨x, hx, hpn⟩ := Option.map_eq_some_iff.mp hkc
        have hlt := h.parents c x d hx (Prod.mk.inj hpn).1
        omega
    rw [hfind, hnone, if_neg fun hdp => by omega]
    rfl

/-- **`vfs_lookup`**: where it finds a dentry it holds one more reference, and the dentry is a child of the parent; it
is new, and has no children, where it was not cached. -/
theorem vfsLookup_some (h : Balanced s held) (hp : p < s.fresh) (hn : n.length < NAME_MAX)
    (hr : s.vfsLookup ops p n = (some c, s')) :
    Balanced s' (c :: held) ∧ Grows s s' ∧ s'.childOf p n = some c ∧
      (s.childOf p n = some c ∧ (∀ q m, s'.childOf q m = s.childOf q m) ∨
        s.childOf p n = none ∧ ∀ m, s'.childOf c m = none) := by
  rw [vfsLookup, dentryLookup] at hr
  cases hchild : s.childOf p n with
  | some d =>
    rw [hchild] at hr
    obtain ⟨hd, rfl⟩ := Prod.mk.inj hr
    obtain rfl := Option.some.inj hd
    obtain ⟨x, hx⟩ := h.of_linked (mem_of_childOf hchild)
    have hsame : ∀ q m, (s.dentryGet d).childOf q m = s.childOf q m :=
      fun q m => childOf_of_same (dentryGet_linked s d) (fun c _ => dentryGet_key s d c) q m
    refine ⟨h.get hx, dentryGet_grows s d, ?_, .inl ⟨rfl, hsame⟩⟩
    rw [hsame, hchild]
  | none =>
    rw [hchild] at hr
    simp only [] at hr
    cases halloc : s.dentryAlloc ops n with
    | mk r s₁ =>
      rw [halloc] at hr
      cases r with
      | none => cases (Prod.mk.inj hr).1
      | some d =>
        simp only [] at hr
        cases hop : (s₁.inodeOf p).bind ops.lookup with
        | none =>
          rw [hop] at hr
          cases (Prod.mk.inj hr).1
        | some lookup =>
          rw [hop] at hr
          simp only [] at hr
          split at hr
          · obtain ⟨hdc, rfl⟩ := Prod.mk.inj hr
            obtain rfl := Option.some.inj hdc
            obtain ⟨hb₃, hgrows, hfound, hnew⟩ := h.link (lookup s₁.fs n).2.1 (lookup s₁.fs n).2.2 hp hn hchild
              halloc
            set s₃ := (s₁.setInode d (lookup s₁.fs n).2.1 (lookup s₁.fs n).2.2).dentryAdd p d with hs₃
            obtain ⟨x, hx⟩ := hb₃.of_linked (mem_of_childOf hfound)
            have hsame : ∀ q m, (s₃.dentryGet d).childOf q m = s₃.childOf q m :=
              fun q m => childOf_of_same (dentryGet_linked s₃ d) (fun c _ => dentryGet_key s₃ d c) q m
            refine ⟨hb₃.get hx, hgrows.trans (dentryGet_grows s₃ d), ?_, .inr ⟨rfl, fun m => ?_⟩⟩
            · rw [hsame, hfound]
            · rw [hsame, hnew m]
          · cases (Prod.mk.inj hr).1

/-- A `vfs_lookup` that finds nothing leaves the cache as it was, and the name was not in it. -/
theorem vfsLookup_none (h : Balanced s held) (hr : s.vfsLookup ops p n = (none, s')) :
    Balanced s' held ∧ s.childOf p n = none ∧ Grows s s' ∧ ∀ q m, s'.childOf q m = s.childOf q m := by
  rw [vfsLookup, dentryLookup] at hr
  cases hchild : s.childOf p n with
  | some d =>
    rw [hchild] at hr
    cases (Prod.mk.inj hr).1
  | none =>
    rw [hchild] at hr
    simp only [] at hr
    cases halloc : s.dentryAlloc ops n with
    | mk r s₁ =>
      rw [halloc] at hr
      cases r with
      | none =>
        obtain ⟨-, rfl⟩ := Prod.mk.inj hr
        obtain ⟨hb, hlinked, hdentries, hroot⟩ := h.alloc_none halloc
        have hkey : ∀ c ∈ s.linked, s₁.key c = s.key c := fun c _ => by rw [key, key, hdentries]
        exact ⟨hb, rfl, ⟨⟨[], by rw [List.append_nil, hlinked]⟩, hkey, hroot⟩, childOf_of_same hlinked hkey⟩
      | some d =>
        simp only [] at hr
        obtain ⟨hb, hd, -, hlinked, hroot, hother, hself⟩ := h.alloc halloc
        have hkey : ∀ c ∈ s.linked, s₁.key c = s.key c := by
          intro c hc
          obtain ⟨x, hx⟩ := h.of_linked hc
          have hlt := h.lt_fresh hx
          rw [key, key, hother c (by omega)]
        -- whatever the file system put into the dentry, it is dropped
        have hdrop : ∀ inode fs, Balanced ((s₁.setInode d inode fs).dentryPut d) held ∧
            Grows s ((s₁.setInode d inode fs).dentryPut d) ∧
            ∀ q m, ((s₁.setInode d inode fs).dentryPut d).childOf q m = s.childOf q m := by
          intro inode fs
          have hset := hb.setInode hself inode fs
          have hlinked' : ((s₁.setInode d inode fs).dentryPut d).linked = s.linked :=
            (dentryPut_linked _ d).trans hlinked
          have hkey' : ∀ c ∈ s.linked, ((s₁.setInode d inode fs).dentryPut d).key c = s.key c := by
            intro c hc
            have hc' : c ∈ (s₁.setInode d inode fs).linked := hlinked.symm ▸ hc
            rw [hset.put_key hc', setInode_key, hkey c hc]
          have hroot' : ((s₁.setInode d inode fs).dentryPut d).root = s.root := (dentryPut_root _ d).trans hroot
          exact ⟨hset.put, ⟨⟨[], by rw [List.append_nil, hlinked']⟩, hkey', hroot'⟩, childOf_of_same hlinked' hkey'⟩
        cases hop : (s₁.inodeOf p).bind ops.lookup with
        | none =>
          rw [hop] at hr
          obtain ⟨-, rfl⟩ := Prod.mk.inj hr
          have hsame : s₁.setInode d none s₁.fs = s₁ := by
            rw [setInode, hself]
            have hupdate : Function.update s₁.dentries d (some ⟨n.take (NAME_MAX - 1), none, none, 1⟩) = s₁.dentries := by
              rw [← hself]
              exact Function.update_eq_self d s₁.dentries
            show { s₁ with dentries := Function.update s₁.dentries d _ } = s₁
            rw [Option.map_some, hupdate]
          obtain ⟨hb', hgrows, hsamechild⟩ := hdrop none s₁.fs
          rw [hsame] at hb' hgrows hsamechild
          exact ⟨hb', rfl, hgrows, hsamechild⟩
        | some lookup =>
          rw [hop] at hr
          simp only [] at hr
          split at hr
          · cases (Prod.mk.inj hr).1
          · obtain ⟨-, rfl⟩ := Prod.mk.inj hr
            obtain ⟨hb', hgrows, hsamechild⟩ := hdrop (lookup s₁.fs n).2.1 (lookup s₁.fs n).2.2
            exact ⟨hb', rfl, hgrows, hsamechild⟩

/-- Follow names through the cache. -/
def cached (s : VfsState φ ι) : ℕ → List Name → Option ℕ
  | d, [] => some d
  | d, n :: ns => (s.childOf d n).bind fun c => cached s c ns

theorem cached_congr (h : ∀ q m, s'.childOf q m = s.childOf q m) (d : ℕ) (ns : List Name) :
    s'.cached d ns = s.cached d ns := by
  induction ns generalizing d with
  | nil => rfl
  | cons n ns ih =>
    rw [cached, cached, h]
    cases s.childOf d n with
    | none => rfl
    | some c => exact ih c

/-- **The walk of `vfs_path_lookup`** exchanges its reference to the start for one to the end. -/
theorem walkPath_some {cur : ℕ} {ns : List Name} (h : Balanced s (cur :: held)) (hns : ∀ n ∈ ns, n.length < NAME_MAX)
    (hr : s.walkPath ops cur ns = (some d, s')) : Balanced s' (d :: held) := by
  induction ns generalizing s cur with
  | nil =>
    obtain ⟨hd, rfl⟩ := Prod.mk.inj hr
    obtain rfl := Option.some.inj hd
    exact h
  | cons n ns ih =>
    rw [walkPath] at hr
    cases hlookup : s.vfsLookup ops cur n with
    | mk r s₁ =>
      rw [hlookup] at hr
      cases r with
      | none => cases (Prod.mk.inj hr).1
      | some next =>
        obtain ⟨x, hx⟩ := h.of_held List.mem_cons_self
        obtain ⟨hb, -⟩ := vfsLookup_some h (h.lt_fresh hx) (hns n List.mem_cons_self) hlookup
        exact ih hb.swap.put (fun m hm => hns m (List.mem_cons_of_mem _ hm)) hr

/-- A walk that fails drops its reference, and leaves the path out of the cache. -/
theorem walkPath_none {cur : ℕ} {ns : List Name} (h : Balanced s (cur :: held)) (hns : ∀ n ∈ ns, n.length < NAME_MAX)
    (hr : s.walkPath ops cur ns = (none, s')) : Balanced s' held ∧ Grows s s' ∧ s'.cached cur ns = none := by
  induction ns generalizing s cur with
  | nil => cases (Prod.mk.inj hr).1
  | cons n ns ih =>
    rw [walkPath] at hr
    cases hlookup : s.vfsLookup ops cur n with
    | mk r s₁ =>
      rw [hlookup] at hr
      cases r with
      | none =>
        obtain ⟨-, rfl⟩ := Prod.mk.inj hr
        obtain ⟨hb, hnone, hgrows, hsame⟩ := vfsLookup_none h hlookup
        refine ⟨hb.put, hgrows.trans hb.put_grows, ?_⟩
        rw [cached, hb.put_childOf, hsame, hnone]
        rfl
      | some next =>
        obtain ⟨x, hx⟩ := h.of_held List.mem_cons_self
        obtain ⟨hb, hgrows, hchild, -⟩ := vfsLookup_some h (h.lt_fresh hx) (hns n List.mem_cons_self) hlookup
        obtain ⟨hb', hgrows', hcached⟩ := ih hb.swap.put (fun m hm => hns m (List.mem_cons_of_mem _ hm)) hr
        refine ⟨hb', (hgrows.trans hb.swap.put_grows).trans hgrows', ?_⟩
        have hfound : s'.childOf cur n = some next := by
          apply hgrows'.childOf
          rw [hb.swap.put_childOf, hchild]
        rw [cached, hfound]
        exact hcached

/-- **The walk of `vfs_lookup_parent`** ends with a reference to the parent; where the path was not in the cache before
it, the leaf is not there after it. -/
theorem walkParent_some {cur : ℕ} {ns : List Name} {leaf : Name} (h : Balanced s (cur :: held))
    (hr : s.walkParent ops cur ns = (some (p, leaf), s')) :
    Balanced s' (p :: held) ∧ leaf.length < NAME_MAX ∧ (∀ n ∈ ns, n.length < NAME_MAX) ∧
      (s.cached cur ns = none → s'.childOf p leaf = none) := by
  induction ns generalizing s cur with
  | nil => cases (Prod.mk.inj hr).1
  | cons n ns ih =>
    cases ns with
    | nil =>
      rw [walkParent] at hr
      split at hr
      · cases (Prod.mk.inj hr).1
      · rename_i hlen
        obtain ⟨hpl, rfl⟩ := Prod.mk.inj hr
        obtain ⟨rfl, rfl⟩ := Prod.mk.inj (Option.some.inj hpl)
        refine ⟨h, Nat.lt_of_not_le hlen, fun m hm => ?_, fun hnone => ?_⟩
        · rw [List.mem_singleton.mp hm]
          exact Nat.lt_of_not_le hlen
        · rw [cached] at hnone
          cases hchild : s.childOf cur n with
          | none => rfl
          | some c =>
            rw [hchild] at hnone
            cases hnone
    | cons m ns =>
      rw [walkParent] at hr
      · split at hr
        · cases (Prod.mk.inj hr).1
        · rename_i hlen
          have hlen := Nat.lt_of_not_le hlen
          cases hlookup : s.vfsLookup ops cur n with
          | mk r s₁ =>
            rw [hlookup] at hr
            cases r with
            | none => cases (Prod.mk.inj hr).1
            | some next =>
              obtain ⟨x, hx⟩ := h.of_held List.mem_cons_self
              obtain ⟨hb, -, -, hcases⟩ := vfsLookup_some h (h.lt_fresh hx) hlen hlookup
              obtain ⟨hb', hleaf, hshort, hmiss⟩ := ih hb.swap.put hr
              refine ⟨hb', hleaf, fun k hk => ?_, fun hnone => hmiss ?_⟩
              · rcases List.mem_cons.mp hk with rfl | hk
                · exact hlen
                · exact hshort k hk
              · rw [cached_congr hb.swap.put_childOf]
                obtain ⟨hhit, hsame⟩ | ⟨-, hnew⟩ := hcases
                · rw [cached_congr hsame]
                  rw [cached, hhit] at hnone
                  exact hnone
                · rw [cached, hnew m]
                  rfl
      · intro heq
        cases heq

theorem walkParent_none {cur : ℕ} {ns : List Name} (h : Balanced s (cur :: held))
    (hr : s.walkParent ops cur ns = (none, s')) : Balanced s' held := by
  induction ns generalizing s cur with
  | nil =>
    obtain ⟨-, rfl⟩ := Prod.mk.inj hr
    exact h.put
  | cons n ns ih =>
    cases ns with
    | nil =>
      rw [walkParent] at hr
      split at hr
      · obtain ⟨-, rfl⟩ := Prod.mk.inj hr
        exact h.put
      · cases (Prod.mk.inj hr).1
    | cons m ns =>
      rw [walkParent] at hr
      · split at hr
        · obtain ⟨-, rfl⟩ := Prod.mk.inj hr
          exact h.put
        · rename_i hlen
          cases hlookup : s.vfsLookup ops cur n with
          | mk r s₁ =>
            rw [hlookup] at hr
            cases r with
            | none =>
              obtain ⟨-, rfl⟩ := Prod.mk.inj hr
              exact (vfsLookup_none h hlookup).1.put
            | some next =>
              obtain ⟨x, hx⟩ := h.of_held List.mem_cons_self
              obtain ⟨hb, -⟩ := vfsLookup_some h (h.lt_fresh hx) (Nat.lt_of_not_le hlen) hlookup
              exact ih hb.swap.put hr
      · intro heq
        cases heq

end

end VfsState

end LizardOs.Vfs
