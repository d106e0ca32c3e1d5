import LizardOs.Lib.SpinLock
import LizardOs.Nolibc.ListHead

/-!
# The registry of file system types

`fs.c` keeps the types that are registered on the list `fs_types`, and counts them, under `fstype_lock`.  Any number of
threads register, unregister and look for types; every access to a pointer of the list and to the counter is a step of its
own, and the threads take these steps in any order.

The calls that have returned answered as a list of types does to which they are put one behind the other; no two types on
it have one name (`fsRegistry_linear`).  A type may be registered again, and again while it is registered.  Unregistering one
that is not on the list follows a null pointer, and the lock stays taken.
-/

namespace LizardOs.Vfs

open LizardOs.Lib LizardOs.Nolibc

/-! ### The calls -/

/-- `fs_types`, or the `list` of a type. -/
abbrev FsNode (τ : Type) := Option τ

inductive FsCall (τ : Type) where
  | register (fstype : Option τ)
  | unregister (fstype : Option τ)
  | find (name : List UInt8)
deriving DecidableEq

inductive FsAnswer (τ : Type) where
  | code (rc : ℤ)
  | type (fstype : Option τ)
deriving DecidableEq

/-- The pointers of the list, and `fstype_count`. -/
structure FsTypes (τ : Type) where
  links : Links (FsNode τ)
  count : ℤ

variable {τ ι : Type} [DecidableEq τ]

/-- A write to memory. -/
inductive FsStore (τ : Type) where
  | next (node : FsNode τ) (p : FsNode τ)
  | prev (node : FsNode τ) (p : FsNode τ)
  | poisonNext (node : FsNode τ)
  | poisonPrev (node : FsNode τ)
  | count (n : ℤ)

def FsStore.apply (s : FsTypes τ) : FsStore τ → FsTypes τ
  | .next node p => { s with links := s.links.setNext node (some p) }
  | .prev node p => { s with links := s.links.setPrev node (some p) }
  | .poisonNext node => { s with links := s.links.setNext node none }
  | .poisonPrev node => { s with links := s.links.setPrev node none }
  | .count n => { s with count := s.count + n }

/-- What `fs_find_locked` is called for. -/
inductive FsGoal (τ : Type) where
  | register (fstype : τ)
  | find

/-- The places inside a section: in `fs_find_locked` before `head->next` is read, before `pos->next` is read, and before the
node is looked at; in `list_add` and `list_del` before their reads; and before writes. -/
inductive FsPoint (τ : Type) where
  | scan (goal : FsGoal τ) (name : List UInt8)
  | load (goal : FsGoal τ) (name : List UInt8) (pos : FsNode τ)
  | test (goal : FsGoal τ) (name : List UInt8) (pos : FsNode τ) (tmp : Option (FsNode τ))
  | add (fstype : τ)
  | del (fstype : τ)
  | delBetween (fstype : τ) (prev : FsNode τ)
  | stores (writes : List (FsStore τ)) (rc : ℤ)

/-- The outcome of `fs_find_locked`. -/
def fsFound : FsGoal τ → Option τ → FsPoint τ ⊕ FsAnswer τ
  | .register _, some _ => .inr (.code (-1))
  | .register t, none => .inl (.add t)
  | .find, t => .inr (.type t)

/-- `fs_register`, `fs_unregister` and `fs_find`. -/
def fsSections (nameOf : τ → List UInt8) : Sections (FsTypes τ) (FsCall τ) (FsPoint τ) (FsAnswer τ) where
  start
    | .register none => .inr (.code 0)
    | .register (some t) => if nameOf t = [] then .inr (.code 0) else .inl (.scan (.register t) (nameOf t))
    | .unregister none => .inr (.code 0)
    | .unregister (some t) => .inl (.del t)
    | .find name => .inl (.scan .find name)
  step
    | .scan goal name, s => (s.links.next none).map fun pos => (.inl (.load goal name pos), s)
    | .load goal name pos, s => some (.inl (.test goal name pos (s.links.next pos)), s)
    | .test goal name pos tmp, s =>
        match pos with
        | none => some (fsFound goal none, s)
        | some t =>
            if nameOf t = name then some (fsFound goal (some t), s)
            else tmp.map fun pos => (.inl (.load goal name pos), s)
    | .add t, s => (s.links.next none).map fun next =>
        (.inl (.stores [.prev next (some t), .next (some t) next, .prev (some t) none, .next none (some t), .count 1] 0), s)
    | .del t, s => (s.links.prev (some t)).map fun prev => (.inl (.delBetween t prev), s)
    | .delBetween t prev, s => (s.links.next (some t)).map fun next =>
        (.inl (.stores [.prev next prev, .next prev next, .poisonPrev (some t), .poisonNext (some t), .count (-1)] 0), s)
    | .stores [] rc, s => some (.inr (.code rc), s)
    | .stores (w :: ws) rc, s => some (.inl (.stores ws rc), w.apply s)

/-! ### The registry as a list -/

/-- What a call answers, and the types that are registered after it; a call that faults has no answer. -/
def registryAfter (nameOf : τ → List UInt8) (ts : List τ) : FsCall τ → Option (FsAnswer τ × List τ)
  | .register none => some (.code 0, ts)
  | .register (some t) =>
      if nameOf t = [] then some (.code 0, ts)
      else if (ts.find? fun u => nameOf u = nameOf t).isSome then some (.code (-1), ts)
      else some (.code 0, t :: ts)
  | .unregister none => some (.code 0, ts)
  | .unregister (some t) => if t ∈ ts then some (.code 0, ts.erase t) else none
  | .find name => some (.type (ts.find? fun u => nameOf u = name), ts)

/-- One more call, which gave this answer. -/
def registryStep (nameOf : τ → List UInt8) (ts : List τ) (x : ι × FsCall τ × FsAnswer τ) : Option (List τ) :=
  (registryAfter nameOf ts x.2.1).bind fun r => if r.1 = x.2.2 then some r.2 else none

/-- The types that are registered after calls that were put one behind the other and gave these answers. -/
def registryRun (nameOf : τ → List UInt8) (log : List (ι × FsCall τ × FsAnswer τ)) : Option (List τ) :=
  log.foldlM (registryStep nameOf) []

/-- The types `ts` are on `fs_types` and counted, and the others are on no list. -/
structure Registered (s : FsTypes τ) (ts : List τ) : Prop where
  ring : s.links.Ring none (ts.map some)
  count : s.count = ts.length
  off : ∀ t, t ∉ ts → s.links.next (some t) = none ∧ s.links.prev (some t) = none

/-- Before any call. -/
def fsBoot : FsTypes τ where
  links :=
    { next := fun node => if node = none then some none else none
      prev := fun node => if node = none then some none else none }
  count := 0

theorem registered_fsBoot (υ : Type) : Registered (fsBoot : FsTypes υ) [] :=
  ⟨⟨List.nodup_singleton _, List.isChain_pair.mpr ⟨rfl, rfl⟩⟩, rfl, fun _ _ => ⟨rfl, rfl⟩⟩

/-! ### A section alone -/

section

variable {nameOf : τ → List UInt8} {s : FsTypes τ} {ts : List τ}

/-- Writes, one after another. -/
theorem stores_lead (ws : List (FsStore τ)) (rc : ℤ) (s : FsTypes τ) :
    (fsSections nameOf).LeadsTo (.stores ws rc) s (.stores [] rc) (ws.foldl FsStore.apply s) := by
  induction ws generalizing s with
  | nil => exact .refl _ s
  | cons w ws ih => exact (Sections.LeadsTo.one rfl).trans (ih _)

/-- `fs_find_locked` along the rest of the list. -/
theorem load_leads (nameOf : τ → List UInt8) (goal : FsGoal τ) (name : List UInt8) {rest : List τ}
    (hchain : (rest.map some ++ [none]).IsChain s.links.Linked) : ∃ tmp,
      (fsSections nameOf).LeadsTo (.load goal name ((rest.map some).headD none)) s
        (.test goal name (rest.find? fun u => nameOf u = name) tmp) s := by
  induction rest with
  | nil => exact ⟨_, .one rfl⟩
  | cons t rest ih =>
    have hnext : s.links.next (some t) = some ((rest.map some).headD none) := by
      cases rest with
      | nil => exact (List.isChain_pair.mp hchain).1
      | cons u rest => exact (List.isChain_cons_cons.mp hchain).1.1
    have hload : (fsSections nameOf).LeadsTo (.load goal name (some t)) s
        (.test goal name (some t) (some ((rest.map some).headD none))) s := by
      rw [← hnext]
      exact .one rfl
    by_cases hname : nameOf t = name
    · rw [List.find?_cons, decide_eq_true hname]
      exact ⟨_, hload⟩
    · rw [List.find?_cons, decide_eq_false hname]
      obtain ⟨tmp, hrest⟩ := ih hchain.tail
      exact ⟨tmp, (hload.trans (.one (if_neg hname))).trans hrest⟩

/-- `fs_find_locked`. -/
theorem scan_leads (nameOf : τ → List UInt8) (h : Registered s ts) (goal : FsGoal τ) (name : List UInt8) : ∃ tmp,
    (fsSections nameOf).LeadsTo (.scan goal name) s (.test goal name (ts.find? fun u => nameOf u = name) tmp) s ∧
      (fsSections nameOf).step (.test goal name (ts.find? fun u => nameOf u = name) tmp) s =
        some (fsFound goal (ts.find? fun u => nameOf u = name), s) := by
  obtain ⟨hnext, -⟩ := h.ring.ends
  obtain ⟨tmp, hload⟩ := load_leads nameOf goal name (h.ring.chain.tail)
  have hscan : (fsSections nameOf).step (.scan goal name) s =
      some (.inl (.load goal name ((ts.map some).headD none)), s) := by
    show (s.links.next none).map _ = _
    rw [hnext]
    rfl
  refine ⟨tmp, (Sections.LeadsTo.one hscan).trans hload, ?_⟩
  cases hfind : ts.find? fun u => nameOf u = name with
  | none => rfl
  | some u =>
    have hname : nameOf u = name := of_decide_eq_true (List.find?_some (p := fun u => decide (nameOf u = name)) hfind)
    exact if_pos hname

/-- Linking a type in. -/
theorem add_finishes (nameOf : τ → List UInt8) (h : Registered s ts) {t : τ} (ht : t ∉ ts) : ∃ n s',
    (fsSections nameOf).finish n (.add t) s = some (.code 0, s') ∧ Registered s' (t :: ts) := by
  obtain ⟨hnext, -⟩ := h.ring.ends
  have hadd : (fsSections nameOf).step (.add t) s = some (.inl (.stores [.prev ((ts.map some).headD none) (some t),
      .next (some t) ((ts.map some).headD none), .prev (some t) none, .next none (some t), .count 1] 0), s) := by
    show (s.links.next none).map _ = _
    rw [hnext]
    rfl
  obtain ⟨n, hn⟩ := ((Sections.LeadsTo.one hadd).trans (stores_lead _ 0 s)).answer rfl
  have hout : ∀ u, u ∉ t :: ts → (some u : FsNode τ) ≠ some t ∧ (some u : FsNode τ) ≠ (ts.map some).headD none := by
    intro u hu
    refine ⟨fun heq => hu (Option.some.inj heq ▸ .head _), fun heq => hu (.tail _ ?_)⟩
    cases ts with
    | nil => cases heq
    | cons v ts => exact Option.some.inj heq ▸ .head ts
  refine ⟨n, _, hn, ?_, ?_, fun u hu => ?_⟩
  · refine Links.Ring.insert (l := []) h.ring fun hin => ht ?_
    rcases List.mem_cons.mp hin with heq | hin
    · cases heq
    · obtain ⟨v, hv, heq⟩ := List.mem_map.mp hin
      exact Option.some.inj heq ▸ hv
  · show s.count + 1 = _
    rw [h.count, List.length_cons]
    push_cast
    rfl
  · obtain ⟨hn, hp⟩ := s.links.insertBetween_other (hout u hu).1 (Option.some_ne_none u) (hout u hu).2
    obtain ⟨hoff, hoff'⟩ := h.off u fun hin => hu (.tail _ hin)
    exact ⟨hn.trans hoff, hp.trans hoff'⟩

/-- Unlinking a type that is on the list. -/
theorem del_finishes (nameOf : τ → List UInt8) (h : Registered s ts) {t : τ} (ht : t ∈ ts) : ∃ n s',
    (fsSections nameOf).finish n (.del t) s = some (.code 0, s') ∧ Registered s' (ts.erase t) := by
  obtain ⟨l, r, rfl⟩ := List.append_of_mem ht
  have hring := h.ring
  rw [List.map_append, List.map_cons] at hring
  obtain ⟨hprev, hnext⟩ := hring.neighbours
  have hdel : (fsSections nameOf).step (.del t) s = some (.inl (.delBetween t ((l.map some).getLastD none)), s) := by
    show (s.links.prev (some t)).map _ = _
    rw [hprev]
    rfl
  have hbetween : (fsSections nameOf).step (.delBetween t ((l.map some).getLastD none)) s =
      some (.inl (.stores [.prev ((r.map some).headD none) ((l.map some).getLastD none),
        .next ((l.map some).getLastD none) ((r.map some).headD none), .poisonPrev (some t), .poisonNext (some t),
        .count (-1)] 0), s) := by
    show (s.links.next (some t)).map _ = _
    rw [hnext]
    rfl
  obtain ⟨n, hn⟩ := (((Sections.LeadsTo.one hdel).trans (.one hbetween)).trans (stores_lead _ 0 s)).answer rfl
  have hnodup : (l ++ t :: r).Nodup := by
    have hmap := (List.nodup_cons.mp h.ring.nodup).2
    exact hmap.of_map some
  have hleft : t ∉ l := fun hl => (List.nodup_append.mp hnodup).2.2 t hl t (.head r) rfl
  have herase : (l ++ t :: r).erase t = l ++ r := by
    rw [List.erase_append_right _ hleft, List.erase_cons_head]
  rw [herase]
  refine ⟨n, _, hn, ?_, ?_, fun u hu => ?_⟩
  · rw [List.map_append]
    exact hring.remove
  · show s.count + -1 = _
    rw [h.count, List.length_append, List.length_append, List.length_cons]
    push_cast
    omega
  · by_cases hut : u = t
    · subst hut
      exact ⟨Function.update_self .., Function.update_self ..⟩
    · have hold : u ∉ l ++ t :: r := by
        rw [List.mem_append, List.mem_cons, not_or, not_or]
        rw [List.mem_append, not_or] at hu
        exact ⟨hu.1, hut, hu.2⟩
      have hne : (some u : FsNode τ) ≠ some t := fun heq => hut (Option.some.inj heq)
      have hlast : (some u : FsNode τ) ≠ (l.map some).getLastD none := by
        intro heq
        have hin : some u ∈ none :: l.map some := heq ▸ List.getLastD_mem_cons
        rcases List.mem_cons.mp hin with hno | hin
        · cases hno
        · obtain ⟨v, hv, hvu⟩ := List.mem_map.mp hin
          exact hu (List.mem_append_left r (Option.some.inj hvu ▸ hv))
      have hhead : (some u : FsNode τ) ≠ (r.map some).headD none := by
        intro heq
        cases r with
        | nil => cases heq
        | cons v r => exact hu (List.mem_append_right l (Option.some.inj heq ▸ .head r))
      obtain ⟨hn, hp⟩ := s.links.bypass_other hne hlast hhead
      obtain ⟨hoff, hoff'⟩ := h.off u hold
      exact ⟨hn.trans hoff, hp.trans hoff'⟩

/-- Unlinking a type that is not on the list faults. -/
theorem del_faults (h : Registered s ts) {t : τ} (ht : t ∉ ts) (n : ℕ) :
    (fsSections nameOf).finish n (.del t) s = none := by
  cases n with
  | zero => rfl
  | succ n =>
    have hdel : (fsSections nameOf).step (.del t) s = none := by
      show (s.links.prev (some t)).map _ = none
      rw [(h.off t ht).2]
      rfl
    rw [Sections.finish, hdel]

/-- A section does to the list what its call is for. -/
theorem section_spec (h : Registered s ts) {c : FsCall τ} {r : FsPoint τ} (hr : (fsSections nameOf).start c = .inl r) :
    (∃ n b s' ts', (fsSections nameOf).finish n r s = some (b, s') ∧ registryAfter nameOf ts c = some (b, ts') ∧
      Registered s' ts') ∨
    (∃ t, c = .unregister (some t) ∧ t ∉ ts) ∧ ∀ n, (fsSections nameOf).finish n r s = none := by
  cases c with
  | register fstype =>
    cases fstype with
    | none => cases hr
    | some t =>
      have hstart : (if nameOf t = [] then Sum.inr (FsAnswer.code 0)
          else .inl (FsPoint.scan (.register t) (nameOf t))) = Sum.inl r := hr
      by_cases hname : nameOf t = []
      · rw [if_pos hname] at hstart
        cases hstart
      · rw [if_neg hname] at hstart
        obtain rfl := Sum.inl.inj hstart
        obtain ⟨tmp, hscan, htest⟩ := scan_leads nameOf h (.register t) (nameOf t)
        have hafter : registryAfter nameOf ts (.register (some t)) =
            if (ts.find? fun u => nameOf u = nameOf t).isSome then some (.code (-1), ts) else some (.code 0, t :: ts) :=
          if_neg hname
        rw [hafter]
        left
        cases hfind : ts.find? fun u => nameOf u = nameOf t with
        | some u =>
          rw [hfind] at hscan htest
          obtain ⟨n, hn⟩ := hscan.answer htest
          exact ⟨n, _, s, ts, hn, rfl, h⟩
        | none =>
          rw [hfind] at hscan htest
          have hnew : t ∉ ts := fun hin => List.find?_eq_none.mp hfind t hin (decide_eq_true rfl)
          obtain ⟨n, s', hn, hs'⟩ := add_finishes nameOf h hnew
          obtain ⟨k, hk⟩ := hscan.trans (.one htest)
          exact ⟨n + k, _, s', t :: ts, (hk n).trans hn, rfl, hs'⟩
  | unregister fstype =>
    cases fstype with
    | none => cases hr
    | some t =>
      obtain rfl : FsPoint.del t = r := Sum.inl.inj hr
      by_cases ht : t ∈ ts
      · obtain ⟨n, s', hn, hs'⟩ := del_finishes nameOf h ht
        exact .inl ⟨n, _, s', ts.erase t, hn, if_pos ht, hs'⟩
      · exact .inr ⟨⟨t, rfl, ht⟩, del_faults h ht⟩
  | find name =>
    obtain rfl : FsPoint.scan .find name = r := Sum.inl.inj hr
    obtain ⟨tmp, hscan, htest⟩ := scan_leads nameOf h .find name
    obtain ⟨n, hn⟩ := hscan.answer htest
    exact .inl ⟨n, _, s, ts, hn, rfl, h⟩

/-- A call that needs no lock. -/
theorem quick_spec (ts : List τ) {c : FsCall τ} {b : FsAnswer τ} (hb : (fsSections nameOf).start c = .inr b) :
    registryAfter nameOf ts c = some (b, ts) := by
  cases c with
  | register fstype =>
    cases fstype with
    | none => exact congrArg (fun b => some (b, ts)) (Sum.inr.inj hb)
    | some t =>
      have hstart : (if nameOf t = [] then Sum.inr (FsAnswer.code 0)
          else .inl (FsPoint.scan (.register t) (nameOf t))) = Sum.inr b := hb
      by_cases hname : nameOf t = []
      · rw [if_pos hname] at hstart
        rw [← Sum.inr.inj hstart]
        exact if_pos hname
      · rw [if_neg hname] at hstart
        cases hstart
  | unregister fstype =>
    cases fstype with
    | none => exact congrArg (fun b => some (b, ts)) (Sum.inr.inj hb)
    | some t => cases hb
  | find name => cases hb

/-- The names of the registered types stay different. -/
theorem names_registryAfter {c : FsCall τ} {r : FsAnswer τ × List τ} (h : (ts.map nameOf).Nodup)
    (hr : registryAfter nameOf ts c = some r) : (r.2.map nameOf).Nodup := by
  cases c with
  | register fstype =>
    cases fstype with
    | none => exact Option.some.inj hr ▸ h
    | some t =>
      rw [registryAfter] at hr
      split at hr
      · exact Option.some.inj hr ▸ h
      · split at hr
        · exact Option.some.inj hr ▸ h
        · rename_i hnone
          rw [← Option.some.inj hr]
          refine List.nodup_cons.mpr ⟨fun hin => ?_, h⟩
          obtain ⟨u, hu, hut⟩ := List.mem_map.mp hin
          refine hnone (List.find?_isSome.mpr ⟨u, hu, decide_eq_true hut⟩)
  | unregister fstype =>
    cases fstype with
    | none => exact Option.some.inj hr ▸ h
    | some t =>
      rw [registryAfter] at hr
      split at hr
      · exact Option.some.inj hr ▸ h.sublist (List.erase_sublist.map nameOf)
      · cases hr
  | find name => exact Option.some.inj hr ▸ h

end

/-! ### Any interleaving -/

theorem registryRun_snoc {nameOf : τ → List UInt8} {log : List (ι × FsCall τ × FsAnswer τ)} {ts ts' : List τ} {i : ι}
    {c : FsCall τ} {b : FsAnswer τ} (h : registryRun nameOf log = some ts)
    (hc : registryAfter nameOf ts c = some (b, ts')) :
    registryRun nameOf (log ++ [(i, c, b)]) = some ts' := by
  have hstep : registryStep nameOf ts (i, c, b) = some ts' := by
    rw [registryStep, hc]
    exact if_pos rfl
  have hone : [(i, c, b)].foldlM (registryStep nameOf) ts = some ts' := by
    rw [List.foldlM_cons, hstep]
    rfl
  rw [registryRun] at h ⊢
  rw [List.foldlM_append, h]
  exact hone

/-- Calls one behind the other keep a list. -/
theorem registered_sequential {nameOf : τ → List UInt8} {log : List (ι × FsCall τ × FsAnswer τ)} {s : FsTypes τ}
    (h : (fsSections nameOf).Sequential fsBoot log s) :
    ∃ ts, registryRun nameOf log = some ts ∧ (ts.map nameOf).Nodup ∧ Registered s ts := by
  induction h with
  | nil => exact ⟨[], rfl, List.nodup_nil, registered_fsBoot τ⟩
  | quick _ hb ih =>
    obtain ⟨ts, hrun, hnames, hreg⟩ := ih
    exact ⟨ts, registryRun_snoc hrun (quick_spec ts hb), hnames, hreg⟩
  | locked _ hstart hfinish ih =>
    obtain ⟨ts, hrun, hnames, hreg⟩ := ih
    rcases section_spec hreg hstart with ⟨n, b, s', ts', hn, hafter, hreg'⟩ | ⟨-, hfault⟩
    · obtain ⟨rfl, rfl⟩ := Prod.mk.inj (Sections.finish_unique hfinish hn)
      exact ⟨ts', registryRun_snoc hrun hafter, names_registryAfter hnames hafter, hreg'⟩
    · rw [hfault] at hfinish
      cases hfinish

/-- **The registry under any interleaving.** The calls that have returned answered as a list of types does, to which they
are put in the order in which they gave the lock back, and no two types on it have one name.  While the lock is free the
pointers and the counter are those of this list.  One thread at a time has the lock; inside its section it comes to its end
by steps of its own, unless it unregisters a type that is not on the list. -/
theorem fsRegistry_linear [DecidableEq ι] (nameOf : τ → List UInt8)
    {S : LockState ι (FsTypes τ) (FsCall τ) (FsPoint τ) (FsAnswer τ)}
    (h : Reaches (fun S a S' => LockState.step (fsSections nameOf) S a = some S') (LockState.init fsBoot) S) :
    ∃ ts, registryRun nameOf S.log = some ts ∧ (ts.map nameOf).Nodup ∧ (S.locked = false → Registered S.shared ts) ∧
      (∀ i j, (S.phase i).Holds → (S.phase j).Holds → i = j) ∧
      ∀ i c r, S.phase i = .inside c r → (∃ n x, (fsSections nameOf).finish n r S.shared = some x) ∨
        ∃ t, c = .unregister (some t) ∧ t ∉ ts := by
  obtain ⟨base, hlin⟩ := LockState.linear h
  obtain ⟨ts, hrun, hnames, hreg⟩ := registered_sequential hlin.sequential
  refine ⟨ts, hrun, hnames, fun hfree => ?_, fun i j hi hj => ?_, fun i c r hinside => ?_⟩
  · rw [(hlin.free hfree).1]
    exact hreg
  · by_contra hne
    exact (hlin.holder hi).2.1 j (fun hji => hne hji.symm) hj
  · obtain ⟨-, -, c', r₀, hstart, hwork⟩ := hlin.holder (show (S.phase i).Holds by rw [hinside]; trivial)
    rcases hwork with ⟨r', hr', k, hk⟩ | ⟨b, n, hb, -⟩
    · obtain ⟨rfl, rfl⟩ := Phase.inside.inj (hinside.symm.trans hr')
      rcases section_spec hreg hstart with ⟨n, b, s', ts', hn, -, -⟩ | ⟨hbad, -⟩
      · exact .inl ⟨n, _, (hk n).symm.trans (Sections.finish_add hn k)⟩
      · exact .inr hbad
    · cases hinside.symm.trans hb

/-- Thread `false` registers a type with the name `[1]`, while thread `true` looks for it. -/
def twoThreads : List (Bool × FsCall Bool) :=
  [false, true, false, true, false, true, false, false, false, false, false, false, false, false, false, false, true, true,
    true, true, true, true].map fun i => (i, if i then .find [1] else .register (some true))

/-- The end of this run. -/
def twoThreadsEnd : LockState Bool (FsTypes Bool) (FsCall Bool) (FsPoint Bool) (FsAnswer Bool) :=
  runLast (LockState.step (fsSections fun t => if t then [1] else [2])) (LockState.init fsBoot) twoThreads

theorem fsRegistry_linear_twoThreads :
    twoThreadsEnd.log = [(false, .register (some true), .code 0), (true, .find [1], .type (some true))] ∧
      Registered twoThreadsEnd.shared [true] := by
  have hall : (runSteps (LockState.step (fsSections fun t => if t then [1] else [2])) (LockState.init fsBoot)
    twoThreads).isSome = true := by decide
  obtain ⟨ts, hrun, -, hfree, -⟩ := fsRegistry_linear _ ((trace_runLast hall).reaches .start)
  have hlog : twoThreadsEnd.log = [(false, .register (some true), .code 0), (true, .find [1], .type (some true))] := by
    decide
  have hone : registryRun (fun t => if t then [1] else [2]) twoThreadsEnd.log = some [true] := by decide
  have hts : ts = [true] := Option.some.inj (hrun.symm.trans hone)
  rw [hts] at hfree
  exact ⟨hlog, hfree (by decide)⟩

end LizardOs.Vfs
