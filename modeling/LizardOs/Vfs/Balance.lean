import LizardOs.Vfs.Dentry
import Mathlib.Data.List.Find
import Mathlib.Data.List.Nodup
import Mathlib.Data.List.Perm.Basic

/-!
# Who holds a dentry

While a call runs it holds references of its own; `held` lists them.  A state is balanced when each dentry has one
reference for being linked (or the root), one for each open file on it, and those that are held, and is allocated
exactly while there are any.  Each operation on dentries moves references between these places.
-/

namespace LizardOs.Vfs

variable {φ ι : Type} {ops : FsOps φ ι}

namespace VfsState

/-- How many open files there are on a dentry. -/
def openOn (s : VfsState φ ι) (d : ℕ) : ℕ := (s.files.map fun f => f.dentry).count d

/-- The reference of the cache. -/
def cacheRef (s : VfsState φ ι) (d : ℕ) : ℕ := if d = s.root ∨ d ∈ s.linked then 1 else 0

/-- `refcount`, 0 for a dentry that is not allocated. -/
def refcountOf (s : VfsState φ ι) (d : ℕ) : ℕ :=
  match s.dentries d with
  | none => 0
  | some x => x.refcount

/-- The counts are what the cache, the open files and the call hold. -/
structure Balanced (s : VfsState φ ι) (held : List ℕ) : Prop where
  count : ∀ d, s.refcountOf d = s.cacheRef d + s.openOn d + held.count d
  alive : ∀ d x, s.dentries d = some x → 0 < x.refcount
  fresh : ∀ d, s.fresh ≤ d → s.dentries d = none
  parents : ∀ d x p, s.dentries d = some x → x.parent = some p → p < s.fresh
  nodup : s.linked.Nodup
  root : s.root ∉ s.linked

section

variable {s s' : VfsState φ ι} {held held' : List ℕ} {d p : ℕ}

/-- Only how often a reference is held matters. -/
theorem Balanced.perm (h : Balanced s held) (hperm : held.Perm held') : Balanced s held' :=
  ⟨fun d => by rw [h.count d, hperm.count_eq d], h.alive, h.fresh, h.parents, h.nodup, h.root⟩

theorem Balanced.swap {a b : ℕ} (h : Balanced s (a :: b :: held)) : Balanced s (b :: a :: held) :=
  h.perm (.swap b a held)

/-- A dentry is allocated exactly while there are references to it. -/
theorem Balanced.allocated_iff (h : Balanced s held) (d : ℕ) :
    (∃ x, s.dentries d = some x) ↔ 0 < s.cacheRef d + s.openOn d + held.count d := by
  rw [← h.count d, refcountOf]
  constructor
  · intro ⟨x, hx⟩
    rw [hx]
    exact h.alive d x hx
  · intro hpos
    cases hx : s.dentries d with
    | none =>
      rw [hx] at hpos
      exact absurd hpos (Nat.lt_irrefl 0)
    | some x => exact ⟨x, rfl⟩

theorem Balanced.of_linked (h : Balanced s held) (hd : d ∈ s.linked) : ∃ x, s.dentries d = some x := by
  rw [h.allocated_iff d, cacheRef, if_pos (.inr hd)]
  omega

theorem Balanced.of_held (h : Balanced s held) (hd : d ∈ held) : ∃ x, s.dentries d = some x := by
  have hcount := List.count_pos_iff.mpr hd
  rw [h.allocated_iff d]
  omega

theorem Balanced.lt_fresh (h : Balanced s held) {x : Dentry ι} (hx : s.dentries d = some x) : d < s.fresh := by
  by_contra hle
  rw [h.fresh d (Nat.le_of_not_lt hle)] at hx
  cases hx

/-- The state differs in the counts and the other data of dentries only, not in where they are. -/
structure SamePlaces (s s' : VfsState φ ι) : Prop where
  fresh : s'.fresh = s.fresh
  linked : s'.linked = s.linked
  root : s'.root = s.root
  files : s'.files = s.files

/-- Replace one allocated dentry. -/
theorem Balanced.update {x y : Dentry ι} (h : Balanced s held) (hx : s.dentries d = some x) (hsame : SamePlaces s s')
    (hdentries : s'.dentries = Function.update s.dentries d (some y))
    (hparent : ∀ q, y.parent = some q → q < s.fresh) (hcount : y.refcount + held.count d = x.refcount + held'.count d)
    (hpos : 0 < y.refcount) (hother : ∀ e, e ≠ d → held'.count e = held.count e) : Balanced s' held' := by
  have hd := h.count d
  rw [refcountOf, hx] at hd
  refine ⟨fun e => ?_, fun e z hz => ?_, fun e he => ?_, fun e z q hz hq => ?_, ?_, ?_⟩
  · have hcache : s'.cacheRef e = s.cacheRef e := by rw [cacheRef, cacheRef, hsame.root, hsame.linked]
    have hopen : s'.openOn e = s.openOn e := by rw [openOn, openOn, hsame.files]
    rw [hcache, hopen, refcountOf, hdentries]
    by_cases hed : e = d
    · subst hed
      rw [Function.update_self]
      show y.refcount = _
      have hd' : x.refcount = s.cacheRef e + s.openOn e + held.count e := hd
      omega
    · rw [Function.update_of_ne hed, hother e hed]
      exact h.count e
  · rw [hdentries] at hz
    by_cases hed : e = d
    · subst hed
      rw [Function.update_self] at hz
      obtain rfl := Option.some.inj hz
      exact hpos
    · rw [Function.update_of_ne hed] at hz
      exact h.alive e z hz
  · rw [hsame.fresh] at he
    have hed : e ≠ d := fun heq => by
      have hlt := h.lt_fresh hx
      omega
    rw [hdentries, Function.update_of_ne hed]
    exact h.fresh e he
  · rw [hsame.fresh]
    rw [hdentries] at hz
    by_cases hed : e = d
    · subst hed
      rw [Function.update_self] at hz
      obtain rfl := Option.some.inj hz
      exact hparent q hq
    · rw [Function.update_of_ne hed] at hz
      exact h.parents e z q hz hq
  · rw [hsame.linked]
    exact h.nodup
  · rw [hsame.root, hsame.linked]
    exact h.root

/-- **`dentry_get`**: one more reference is held. -/
theorem Balanced.get {x : Dentry ι} (h : Balanced s held) (hx : s.dentries d = some x) :
    Balanced (s.dentryGet d) (d :: held) := by
  have hpos := h.alive d x hx
  have hget : s.dentryGet d = { s with
      dentries := Function.update s.dentries d (some { x with refcount := x.refcount + 1 }) } := by rw [dentryGet, hx]
  rw [hget]
  refine h.update hx ⟨rfl, rfl, rfl, rfl⟩ rfl (h.parents d x · hx) ?_ (Nat.succ_pos _) fun e he => ?_
  · rw [List.count_cons_self]
    show x.refcount + 1 + held.count d = _
    omega
  · exact List.count_cons_of_ne (Ne.symm he)

/-- **`dentry_put`**: a reference that is held is dropped, and the dentry with the last one. -/
theorem Balanced.put (h : Balanced s (d :: held)) : Balanced (s.dentryPut d) held := by
  obtain ⟨x, hx⟩ := h.of_held List.mem_cons_self
  have hput : s.dentryPut d = { s with
      dentries := Function.update s.dentries d
        (if x.refcount = 1 then none else some { x with refcount := x.refcount - 1 }) } := by rw [dentryPut, hx]
  have hpos := h.alive d x hx
  have hd := h.count d
  rw [refcountOf, hx, List.count_cons_self] at hd
  have hd : x.refcount = s.cacheRef d + s.openOn d + (held.count d + 1) := hd
  by_cases hone : x.refcount = 1
  · rw [if_pos hone] at hput
    rw [hput]
    have hold : ∀ e y, Function.update s.dentries d none e = some y → e ≠ d ∧ s.dentries e = some y := by
      intro e y hy
      by_cases hed : e = d
      · subst hed
        rw [Function.update_self] at hy
        cases hy
      · rw [Function.update_of_ne hed] at hy
        exact ⟨hed, hy⟩
    refine ⟨fun e => ?_, fun e y hy => h.alive e y (hold e y hy).2, fun e he => ?_,
      fun e y q hy hq => h.parents e y q (hold e y hy).2 hq, h.nodup, h.root⟩
    · show (match Function.update s.dentries d none e with | none => 0 | some x => x.refcount) =
        s.cacheRef e + s.openOn e + held.count e
      by_cases hed : e = d
      · subst hed
        rw [Function.update_self]
        show 0 = _
        omega
      · have he := h.count e
        rw [List.count_cons_of_ne (Ne.symm hed)] at he
        rw [Function.update_of_ne hed]
        exact he
    · show Function.update s.dentries d none e = none
      by_cases hed : e = d
      · rw [hed, Function.update_self]
      · rw [Function.update_of_ne hed]
        exact h.fresh e he
  · rw [if_neg hone] at hput
    rw [hput]
    refine h.update hx ⟨rfl, rfl, rfl, rfl⟩ rfl (h.parents d x · hx) ?_ ?_ fun e he => ?_
    · rw [List.count_cons_self]
      show x.refcount - 1 + (held.count d + 1) = _
      omega
    · show 0 < x.refcount - 1
      omega
    · exact (List.count_cons_of_ne (Ne.symm he)).symm

/-- **`dentry_alloc`**: the new dentry has one reference, which is held. -/
theorem Balanced.alloc {name : Name} (h : Balanced s held) (hr : s.dentryAlloc ops name = (some d, s')) :
    Balanced s' (d :: held) ∧ d = s.fresh ∧ s'.fresh = s.fresh + 1 ∧ s'.linked = s.linked ∧ s'.root = s.root ∧
      (∀ e, e ≠ d → s'.dentries e = s.dentries e) ∧
      s'.dentries d = some ⟨name.take (NAME_MAX - 1), none, none, 1⟩ := by
  rw [dentryAlloc] at hr
  split at hr
  · obtain ⟨hd, rfl⟩ := Prod.mk.inj hr
    obtain rfl := Option.some.inj hd
    have hnone := h.fresh s.fresh le_rfl
    have hzero := h.count s.fresh
    rw [refcountOf, hnone] at hzero
    have hzero : 0 = s.cacheRef s.fresh + s.openOn s.fresh + held.count s.fresh := hzero
    have hothers : ∀ e, e ≠ s.fresh → Function.update s.dentries s.fresh
        (some ⟨name.take (NAME_MAX - 1), none, none, 1⟩) e = s.dentries e := fun e he => Function.update_of_ne he ..
    have hself : Function.update s.dentries s.fresh
        (some (⟨name.take (NAME_MAX - 1), none, none, 1⟩ : Dentry ι)) s.fresh = some _ := Function.update_self ..
    refine ⟨⟨fun e => ?_, fun e x hx => ?_, fun e he => ?_, fun e x q hx hq => ?_, h.nodup, h.root⟩, rfl, rfl, rfl, rfl,
      hothers, hself⟩
    · show (match Function.update s.dentries s.fresh _ e with | none => 0 | some x => x.refcount) =
        s.cacheRef e + s.openOn e + (s.fresh :: held).count e
      by_cases he : e = s.fresh
      · rw [he, hself, List.count_cons_self]
        show 1 = _
        omega
      · rw [hothers e he, List.count_cons_of_ne (Ne.symm he)]
        exact h.count e
    · by_cases he : e = s.fresh
      · rw [he] at hx
        obtain rfl := Option.some.inj (hself.symm.trans hx)
        exact Nat.one_pos
      · exact h.alive e x ((hothers e he).symm.trans hx)
    · have he : s.fresh + 1 ≤ e := he
      exact (hothers e (by omega)).trans (h.fresh e (by omega))
    · show q < s.fresh + 1
      by_cases he : e = s.fresh
      · rw [he] at hx
        obtain rfl := Option.some.inj (hself.symm.trans hx)
        cases hq
      · have hlt := h.parents e x q ((hothers e he).symm.trans hx) hq
        omega
  · cases (Prod.mk.inj hr).1

/-- Without memory nothing happens to the dentries. -/
theorem Balanced.alloc_none {name : Name} (h : Balanced s held) (hr : s.dentryAlloc ops name = (none, s')) :
    Balanced s' held ∧ s'.linked = s.linked ∧ s'.dentries = s.dentries ∧ s'.root = s.root := by
  rw [dentryAlloc] at hr
  split at hr
  · cases (Prod.mk.inj hr).1
  · obtain ⟨-, rfl⟩ := Prod.mk.inj hr
    exact ⟨⟨h.count, h.alive, h.fresh, h.parents, h.nodup, h.root⟩, rfl, rfl, rfl⟩

/-- The file system works on the inode of a dentry, not on its references. -/
theorem Balanced.setInode {x : Dentry ι} (h : Balanced s held) (hx : s.dentries d = some x) (inode : Option ι) (fs : φ) :
    Balanced (s.setInode d inode fs) held := by
  have hset : s.setInode d inode fs =
      { s with fs := fs, dentries := Function.update s.dentries d (some { x with inode := inode }) } := by
    rw [VfsState.setInode, hx]
    rfl
  rw [hset]
  exact h.update hx ⟨rfl, rfl, rfl, rfl⟩ rfl (h.parents d x · hx) rfl (h.alive d x hx) fun _ _ => rfl

/-- **`dentry_add`**: the held reference becomes that of the cache. -/
theorem Balanced.add {x : Dentry ι} (h : Balanced s (d :: held)) (hx : s.dentries d = some x) (hd : d ∉ s.linked)
    (hroot : d ≠ s.root) (hp : p < s.fresh) : Balanced (s.dentryAdd p d) held := by
  have hadd : s.dentryAdd p d = { s with
      dentries := Function.update s.dentries d (some { x with parent := some p })
      linked := s.linked ++ [d] } := by
    rw [dentryAdd, hx]
    rfl
  -- first the parent is set, then the reference changes its place
  have hset : Balanced { s with dentries := Function.update s.dentries d (some { x with parent := some p }) }
      (d :: held) := by
    refine h.update hx ⟨rfl, rfl, rfl, rfl⟩ rfl (fun q hq => ?_) rfl (h.alive d x hx) fun _ _ => rfl
    obtain rfl := Option.some.inj hq
    exact hp
  rw [hadd]
  refine ⟨fun e => ?_, hset.alive, hset.fresh, hset.parents, ?_, ?_⟩
  · have hcount := hset.count e
    have hopen : openOn { s with
      dentries := Function.update s.dentries d (some { x with parent := some p })
      linked := s.linked ++ [d] } e = s.openOn e := rfl
    have hcache : cacheRef { s with
      dentries := Function.update s.dentries d (some { x with parent := some p })
      linked := s.linked ++ [d] } e = s.cacheRef e + if e = d then 1 else 0 := by
      rw [cacheRef, cacheRef]
      by_cases hed : e = d
      · rw [hed, if_pos (.inr (List.mem_append_right _ (List.mem_singleton_self d))),
          if_neg (not_or.mpr ⟨hroot, hd⟩), if_pos rfl]
      · have hiff : (e = s.root ∨ e ∈ s.linked ++ [d]) ↔ (e = s.root ∨ e ∈ s.linked) := by
          rw [List.mem_append, List.mem_singleton]
          exact or_congr_right (or_iff_left hed)
        rw [if_neg hed]
        exact if_congr hiff rfl rfl
    rw [hopen, hcache]
    have hcount : refcountOf { s with
        dentries := Function.update s.dentries d (some { x with parent := some p }) } e =
          s.cacheRef e + s.openOn e + (d :: held).count e := hcount
    rw [List.count_cons] at hcount
    show refcountOf { s with dentries := Function.update s.dentries d (some { x with parent := some p }) } e = _
    rw [hcount]
    by_cases hed : e = d
    · rw [if_pos hed, if_pos (by rw [hed]; exact beq_self_eq_true d)]
      omega
    · rw [if_neg hed, if_neg (by rw [beq_iff_eq]; exact Ne.symm hed)]
      omega
  · show (s.linked ++ [d]).Nodup
    rw [List.nodup_append]
    refine ⟨h.nodup, List.nodup_singleton d, fun a ha b hb hab => hd ?_⟩
    rw [← List.mem_singleton.mp hb, ← hab]
    exact ha
  · show s.root ∉ s.linked ++ [d]
    rw [List.mem_append, List.mem_singleton, not_or]
    exact ⟨h.root, Ne.symm hroot⟩

/-- **`list_del`**: the reference of the cache is held by the call. -/
theorem Balanced.unlink (h : Balanced s held) (hd : d ∈ s.linked) :
    Balanced { s with linked := s.linked.erase d } (d :: held) := by
  refine ⟨fun e => ?_, h.alive, h.fresh, h.parents, h.nodup.erase d, fun hroot => h.root (List.mem_of_mem_erase hroot)⟩
  have hcount := h.count e
  have hcache : cacheRef { s with linked := s.linked.erase d } e + (if e = d then 1 else 0) = s.cacheRef e := by
    rw [cacheRef, cacheRef]
    by_cases hed : e = d
    · have hroot : d ≠ s.root := fun heq => h.root (heq ▸ hd)
      have hnot : ¬(d = s.root ∨ d ∈ s.linked.erase d) := not_or.mpr ⟨hroot, h.nodup.not_mem_erase⟩
      have hin : d = s.root ∨ d ∈ s.linked := .inr hd
      rw [hed, if_neg hnot, if_pos hin, if_pos rfl]
    · rw [if_neg hed]
      exact if_congr (or_congr_right (List.mem_erase_of_ne hed)) rfl rfl
  have hopen : openOn { s with linked := s.linked.erase d } e = s.openOn e := rfl
  show s.refcountOf e = _
  rw [hcount, ← hcache, hopen, List.count_cons]
  by_cases hed : e = d
  · rw [if_pos hed, if_pos (by rw [hed]; exact beq_self_eq_true d)]
    omega
  · rw [if_neg hed, if_neg (by rw [beq_iff_eq]; exact Ne.symm hed)]
    omega

end

end VfsState

end LizardOs.Vfs
