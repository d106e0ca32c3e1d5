import LizardOs.Lib.LinkedRing
import LizardOs.Lib.Steps

/-!
# `list_head`

The intrusive lists of `list.h`.  A `list_head` stands in every object that can be on a list, and one more is the head of a
list.  The operations write pointers and know nothing of lists; a null pointer that is followed is a fault (`none`).

As long as a node is linked in only while it is on no list, and unlinked only while it is on one, any number of heads are
lists, in every run of the operations (`listHead_refines`): no null pointer is followed, every operation does to its list
what its name says and nothing to the others, and the loops over a list meet its nodes in order.  The loop may unlink the
node it stands on.
-/

namespace LizardOs.Nolibc

open LizardOs.Lib

variable {α β ι : Type*} [DecidableEq α] [DecidableEq ι]

/-! ### The operations -/

/-- `InitListHead`. -/
def initListHead (list : α) (m : Links α) : Links α := (m.setNext list (some list)).setPrev list (some list)

/-- `__ListAdd`. -/
def listAddBetween (new prev next : α) (m : Links α) : Links α :=
  let m := m.setPrev next (some new)
  let m := m.setNext new (some next)
  let m := m.setPrev new (some prev)
  m.setNext prev (some new)

/-- `list_add`. -/
def listAdd (new head : α) (m : Links α) : Option (Links α) :=
  match m.next head with
  | none => none
  | some next => some (listAddBetween new head next m)

/-- `list_add_tail`. -/
def listAddTail (new head : α) (m : Links α) : Option (Links α) :=
  match m.prev head with
  | none => none
  | some prev => some (listAddBetween new prev head m)

/-- `__list_del`. -/
def listDelBetween (prev next : α) (m : Links α) : Links α := (m.setPrev next (some prev)).setNext prev (some next)

/-- `list_del`. -/
def listDel (entry : α) (m : Links α) : Option (Links α) :=
  match m.prev entry, m.next entry with
  | some prev, some next => some (((listDelBetween prev next m).setPrev entry none).setNext entry none)
  | _, _ => none

/-- `list_move_tail`. -/
def listMoveTail (entry head : α) (m : Links α) : Option (Links α) := (listDel entry m).bind (listAddTail entry head)

/-- `list_move`. -/
def listMove (entry head : α) (m : Links α) : Option (Links α) := (listDel entry m).bind (listAdd entry head)

/-- `list_empty`. -/
def listEmpty (head : α) (m : Links α) : Bool := decide (m.next head = some head)

/-- `list_next`. -/
def listNext (pos head : α) (m : Links α) : Option α :=
  match m.next pos with
  | none => none
  | some next => if next = head then m.next next else some next

/-- `list_for_each`, in the state `s` at `pos` with `tmp`; the body has the links and a state of its own. -/
def forEachFrom (head : α) (body : α → Links α × β → Option (Links α × β)) :
    ℕ → α → Option α → Links α × β → Option (Links α × β)
  | 0, _, _, _ => none
  | n + 1, pos, tmp, s =>
      if pos = head then some s
      else
        match body pos s with
        | none => none
        | some s =>
            match tmp with
            | none => none
            | some pos => forEachFrom head body n pos (s.1.next pos) s

/-- `list_for_each`. -/
def listForEach (fuel : ℕ) (head : α) (body : α → Links α × β → Option (Links α × β)) (s : Links α × β) :
    Option (Links α × β) :=
  match s.1.next head with
  | none => none
  | some pos => forEachFrom head body fuel pos (s.1.next pos) s

/-! ### One list -/

section

variable {m : Links α} {h e : α} {xs l r : List α}

theorem ring_initListHead (m : Links α) (h : α) : (initListHead h m).Ring h [] :=
  ⟨List.nodup_singleton h, List.isChain_pair.mpr ⟨Function.update_self .., Function.update_self ..⟩⟩

theorem listAdd_ring (hr : m.Ring h xs) : listAdd e h m = some (m.insertBetween e h (xs.headD h)) := by
  rw [listAdd, hr.ends.1]
  rfl

theorem listAddTail_ring (hr : m.Ring h xs) : listAddTail e h m = some (m.insertBetween e (xs.getLastD h) h) := by
  rw [listAddTail, hr.ends.2]
  rfl

theorem listDel_ring (hr : m.Ring h (l ++ e :: r)) : listDel e m = some (m.bypass e (l.getLastD h) (r.headD h)) := by
  rw [listDel, hr.neighbours.1, hr.neighbours.2]
  rfl

theorem listEmpty_ring (hr : m.Ring h xs) : listEmpty h m = xs.isEmpty := by
  rw [listEmpty, hr.ends.1]
  cases xs with
  | nil => exact decide_eq_true rfl
  | cons x xs =>
    refine decide_eq_false fun heq => (List.nodup_cons.mp hr.nodup).1 ?_
    rw [← Option.some.inj heq]
    exact .head xs

/-- The node behind `e`, the head left out. -/
theorem listNext_ring (hr : m.Ring h (l ++ e :: r)) : listNext e h m = some ((r ++ l).headD e) := by
  obtain ⟨-, hnext⟩ := hr.neighbours
  rw [listNext, hnext]
  cases r with
  | nil =>
    refine (if_pos rfl).trans (hr.ends.1.trans ?_)
    cases l
    · rfl
    · rfl
  | cons b r =>
    have hb : b ∈ l ++ e :: b :: r := List.mem_append_right l (.tail e (.head r))
    exact if_neg fun (heq : b = h) => (List.nodup_cons.mp hr.nodup).1 (heq ▸ hb)

end

/-! ### Several lists -/

/-- The heads are lists with the nodes of `ls`, which share no node. -/
structure Lists (head : ι → α) (ls : ι → List α) (m : Links α) : Prop where
  ring : ∀ i, m.Ring (head i) (ls i)
  apart : ∀ i j, i ≠ j → (head i :: ls i).Disjoint (head j :: ls j)

inductive ListCall (ι α : Type*) where
  | init (i : ι)
  | add (new : α) (i : ι)
  | addTail (new : α) (i : ι)
  | del (entry : α)
  | move (entry : α) (i : ι)
  | moveTail (entry : α) (i : ι)

namespace ListCall

/-- The pointers after a call. -/
def exec (head : ι → α) (m : Links α) : ListCall ι α → Option (Links α)
  | .init i => some (initListHead (head i) m)
  | .add new i => listAdd new (head i) m
  | .addTail new i => listAddTail new (head i) m
  | .del entry => listDel entry m
  | .move entry i => listMove entry (head i) m
  | .moveTail entry i => listMoveTail entry (head i) m

/-- The lists after a call. -/
def after (ls : ι → List α) : ListCall ι α → ι → List α
  | .init i => Function.update ls i []
  | .add new i => Function.update ls i (new :: ls i)
  | .addTail new i => Function.update ls i (ls i ++ [new])
  | .del entry => fun j => (ls j).erase entry
  | .move entry i => Function.update (fun j => (ls j).erase entry) i (entry :: (ls i).erase entry)
  | .moveTail entry i => Function.update (fun j => (ls j).erase entry) i ((ls i).erase entry ++ [entry])

/-- A node is linked in while it is on no list, and unlinked while it is on one. -/
def Proper (head : ι → α) (ls : ι → List α) : ListCall ι α → Prop
  | .init _ => True
  | .add new _ => ∀ j, new ∉ head j :: ls j
  | .addTail new _ => ∀ j, new ∉ head j :: ls j
  | .del entry => ∃ j, entry ∈ ls j
  | .move entry _ => ∃ j, entry ∈ ls j
  | .moveTail entry _ => ∃ j, entry ∈ ls j

end ListCall

section

variable {head : ι → α} {ls : ι → List α} {m : Links α} {e : α} {i : ι}

omit [DecidableEq α] [DecidableEq ι] in
theorem Lists.outside (h : Lists head ls m) {j : ι} (hij : j ≠ i) {x : α} (hx : x ∈ head i :: ls i) :
    x ∉ head j :: ls j := fun hin => h.apart j i hij hin hx

omit [DecidableEq α] [DecidableEq ι] in
/-- Heads that point at themselves are empty lists. -/
theorem lists_empty (hinj : Function.Injective head) (hself : ∀ i, m.Linked (head i) (head i)) :
    Lists head (fun _ => []) m := by
  refine ⟨fun i => ⟨List.nodup_singleton _, List.isChain_pair.mpr (hself i)⟩, fun i j hij x hx hx' => hij (hinj ?_)⟩
  rw [← List.mem_singleton.mp hx, ← List.mem_singleton.mp hx']

omit [DecidableEq α] in
/-- A change of one list. -/
theorem Lists.update (h : Lists head ls m) {m' : Links α} {xs : List α} (hring : m'.Ring (head i) xs)
    (hothers : ∀ j, j ≠ i → m'.Ring (head j) (ls j)) (hsub : ∀ x ∈ xs, x ∈ ls i ∨ ∀ j, x ∉ head j :: ls j) :
    Lists head (Function.update ls i xs) m' := by
  have hout : ∀ {j : ι}, j ≠ i → ∀ x ∈ head i :: xs, x ∉ head j :: ls j := by
    intro j hj x hx
    rcases List.mem_cons.mp hx with rfl | hx
    · exact h.outside hj (.head _)
    · rcases hsub x hx with hin | hnew
      · exact h.outside hj (.tail _ hin)
      · exact hnew j
  constructor
  · intro j
    by_cases hj : j = i
    · rw [hj, Function.update_self]
      exact hring
    · rw [Function.update_of_ne hj]
      exact hothers j hj
  · intro j k hjk
    by_cases hj : j = i
    · rw [hj, Function.update_self, Function.update_of_ne (hj ▸ hjk.symm)]
      exact fun x hx => hout (hj ▸ hjk.symm) x hx
    · rw [Function.update_of_ne hj]
      by_cases hk : k = i
      · rw [hk, Function.update_self]
        exact fun x hx hin => hout hj x hin hx
      · rw [Function.update_of_ne hk]
        exact h.apart j k hjk

/-- `InitListHead` makes its list empty. -/
theorem Lists.init (h : Lists head ls m) (i : ι) : Lists head (Function.update ls i []) (initListHead (head i) m) := by
  refine h.update (ring_initListHead m _) (fun j hj => ?_) fun x hx => absurd hx List.not_mem_nil
  have hne : ∀ x ∈ head j :: ls j, x ≠ head i := fun x hx hxi => h.outside hj (.head _) (hxi ▸ hx)
  exact (h.ring j).congr (fun x hx => Function.update_of_ne (hne x hx) ..) fun x hx => Function.update_of_ne (hne x hx) ..

/-- A node that is on no list is linked in between two parts of a list. -/
theorem Lists.insert (h : Lists head ls m) {l r : List α} (hi : ls i = l ++ r) (he : ∀ j, e ∉ head j :: ls j) :
    Lists head (Function.update ls i (l ++ e :: r)) (m.insertBetween e (l.getLastD (head i)) (r.headD (head i))) := by
  have hring := h.ring i
  have hei := he i
  rw [hi] at hring hei
  refine h.update (hring.insert hei) (fun j hj => ?_) fun x hx => ?_
  · refine (h.ring j).insert_elsewhere (he j) (h.outside hj ?_) (h.outside hj ?_)
    · rw [hi]
      exact Links.getLastD_mem ..
    · rw [hi]
      exact Links.headD_mem ..
  · rw [List.mem_append, List.mem_cons] at hx
    rw [hi, List.mem_append]
    rcases hx with hx | rfl | hx
    · exact .inl (.inl hx)
    · exact .inr he
    · exact .inl (.inr hx)

theorem Lists.add (h : Lists head ls m) (i : ι) (he : ∀ j, e ∉ head j :: ls j) :
    ∃ m', listAdd e (head i) m = some m' ∧ Lists head (Function.update ls i (e :: ls i)) m' :=
  ⟨_, listAdd_ring (h.ring i), h.insert (List.nil_append _).symm he⟩

theorem Lists.addTail (h : Lists head ls m) (i : ι) (he : ∀ j, e ∉ head j :: ls j) :
    ∃ m', listAddTail e (head i) m = some m' ∧ Lists head (Function.update ls i (ls i ++ [e])) m' :=
  ⟨_, listAddTail_ring (h.ring i), h.insert (List.append_nil _).symm he⟩

/-- Only the list of a node loses it. -/
theorem Lists.erase_eq (h : Lists head ls m) {l r : List α} (hi : ls i = l ++ e :: r) :
    (fun j => (ls j).erase e) = Function.update ls i (l ++ r) := by
  funext j
  have hin : e ∈ ls i := by
    rw [hi]
    exact List.mem_append_right l (.head r)
  by_cases hj : j = i
  · have hnodup := (List.nodup_cons.mp (h.ring i).nodup).2
    rw [hi, List.nodup_append] at hnodup
    have hleft : e ∉ l := fun hl => hnodup.2.2 e hl e (.head r) rfl
    rw [hj, Function.update_self, hi, List.erase_append_right _ hleft, List.erase_cons_head]
  · rw [Function.update_of_ne hj]
    exact List.erase_of_not_mem fun hx => h.outside hj (.tail _ hin) (.tail _ hx)

/-- `list_del` of a node of a list takes it out, and then it is on no list. -/
theorem Lists.del (h : Lists head ls m) (hin : ∃ j, e ∈ ls j) : ∃ m', listDel e m = some m' ∧
    Lists head (fun j => (ls j).erase e) m' ∧ ∀ j, e ∉ head j :: (ls j).erase e := by
  obtain ⟨i, hin⟩ := hin
  obtain ⟨l, r, hi⟩ := List.append_of_mem hin
  have hring := h.ring i
  rw [hi] at hring
  refine ⟨_, listDel_ring hring, ?_, fun j hj => ?_⟩
  · rw [h.erase_eq hi]
    refine h.update hring.remove (fun j hj => ?_) fun x hx => .inl ?_
    · have hlast : l.getLastD (head i) ∈ head i :: ls i := by
        rw [hi]
        exact Links.getLastD_mem ..
      have hhead : r.headD (head i) ∈ head i :: ls i := by
        rw [hi, List.append_cons]
        exact Links.headD_mem ..
      exact (h.ring j).remove_elsewhere (h.outside hj (.tail _ hin)) (h.outside hj hlast) (h.outside hj hhead)
    · rw [hi]
      exact List.mem_append.mpr ((List.mem_append.mp hx).imp_right (.tail e))
  · obtain ⟨hhead, hnodup⟩ := List.nodup_cons.mp (h.ring j).nodup
    rcases List.mem_cons.mp hj with heq | hj
    · by_cases hji : j = i
      · subst hji
        exact hhead (heq ▸ hin)
      · exact h.outside hji (.tail _ hin) (heq ▸ .head _)
    · exact (hnodup.not_mem_erase) hj

/-- **One call**: it follows no null pointer, and the heads are lists again. -/
theorem Lists.step (h : Lists head ls m) {c : ListCall ι α} (hc : c.Proper head ls) :
    ∃ m', c.exec head m = some m' ∧ Lists head (c.after ls) m' := by
  cases c with
  | init i => exact ⟨_, rfl, h.init i⟩
  | add new i => exact h.add i hc
  | addTail new i => exact h.addTail i hc
  | del entry =>
    obtain ⟨m', hm, hls, -⟩ := h.del hc
    exact ⟨m', hm, hls⟩
  | move entry i =>
    obtain ⟨m₁, hm₁, hls, hnew⟩ := h.del hc
    obtain ⟨m', hm, hend⟩ := hls.add i hnew
    refine ⟨m', ?_, hend⟩
    rw [ListCall.exec, listMove, hm₁]
    exact hm
  | moveTail entry i =>
    obtain ⟨m₁, hm₁, hls, hnew⟩ := h.del hc
    obtain ⟨m', hm, hend⟩ := hls.addTail i hnew
    refine ⟨m', ?_, hend⟩
    rw [ListCall.exec, listMoveTail, hm₁]
    exact hm

end

/-! ### Loops over a list -/

section

variable {head : ι → α} {ls : ι → List α} {m : Links α} {h : α} {xs : List α} {fuel : ℕ}

/-- The loop of `list_for_each` has read the node behind the one it stands on before its body runs.  So it meets all the
nodes when the body at a node keeps what is known of those behind it. -/
theorem forEachFrom_rule {body : α → Links α × β → Option (Links α × β)} {I : List α → Links α × β → Prop}
    (hbody : ∀ x rest s, I (x :: rest) s → x ≠ h ∧ s.1.next x = some (rest.headD h) ∧ ∃ s', body x s = some s' ∧ I rest s')
    {rest : List α} {s : Links α × β} (hfuel : rest.length < fuel) (hs : I rest s) :
    ∃ s', forEachFrom h body fuel (rest.headD h) (s.1.next (rest.headD h)) s = some s' ∧ I [] s' := by
  induction rest generalizing fuel s with
  | nil =>
    obtain ⟨n, rfl⟩ : ∃ n, fuel = n + 1 := ⟨fuel - 1, by simp only [List.length_nil] at hfuel; omega⟩
    exact ⟨s, if_pos rfl, hs⟩
  | cons x rest ih =>
    obtain ⟨n, rfl⟩ : ∃ n, fuel = n + 1 := ⟨fuel - 1, by omega⟩
    obtain ⟨hx, hnext, s₁, hrun, hs₁⟩ := hbody x rest s hs
    obtain ⟨s', hloop, hend⟩ := ih (Nat.lt_of_succ_lt_succ hfuel) hs₁
    refine ⟨s', ?_, hend⟩
    show forEachFrom h body (n + 1) x (s.1.next x) s = some s'
    rw [forEachFrom, if_neg hx, hrun, hnext]
    exact hloop

omit [DecidableEq α] in
/-- A node of a ring, and the one behind it. -/
theorem ring_next {l r : List α} {e : α} (hr : m.Ring h (l ++ e :: r)) : e ≠ h ∧ m.next e = some (r.headD h) :=
  ⟨fun heq => (List.nodup_cons.mp hr.nodup).1 (heq ▸ List.mem_append_right l (.head r)), hr.neighbours.2⟩

/-- A loop that leaves the pointers alone is a fold over the list. -/
theorem listForEach_fold (hr : m.Ring h xs) (hfuel : xs.length < fuel) (f : β → α → β) (b : β) :
    listForEach fuel h (fun x s => some (s.1, f s.2 x)) (m, b) = some (m, xs.foldl f b) := by
  have hbody : ∀ x rest (s : Links α × β), (∃ seen, xs = seen ++ x :: rest ∧ s = (m, seen.foldl f b)) →
      x ≠ h ∧ s.1.next x = some (rest.headD h) ∧ ∃ s', some (s.1, f s.2 x) = some s' ∧
        ∃ seen, xs = seen ++ rest ∧ s' = (m, seen.foldl f b) := by
    rintro x rest s ⟨seen, hxs, rfl⟩
    rw [hxs] at hr
    obtain ⟨hx, hnext⟩ := ring_next hr
    refine ⟨hx, hnext, _, rfl, seen ++ [x], by rw [hxs, List.append_assoc]; rfl, ?_⟩
    rw [List.foldl_append]
    rfl
  obtain ⟨s', hloop, seen, hseen, rfl⟩ := forEachFrom_rule (I := fun rest s => ∃ seen, xs = seen ++ rest ∧
    s = (m, seen.foldl f b)) hbody hfuel ⟨[], rfl, rfl⟩
  rw [List.append_nil] at hseen
  subst hseen
  rw [listForEach, hr.ends.1]
  exact hloop

/-- A loop that unlinks some of the nodes it meets leaves the others. -/
theorem listForEach_unlinks (hls : Lists head ls m) (i : ι) (hfuel : (ls i).length < fuel) (p : α → Bool) :
    ∃ m', listForEach fuel (head i) (fun x s => if p x then (listDel x s.1).map fun m => (m, s.2 ++ [x]) else some s)
        (m, []) = some (m', (ls i).filter p) ∧
      Lists head (Function.update ls i ((ls i).filter fun x => !p x)) m' := by
  let I : List α → Links α × List α → Prop := fun rest s => ∃ seen, ls i = seen ++ rest ∧ s.2 = seen.filter p ∧
    Lists head (Function.update ls i (seen.filter (fun x => !p x) ++ rest)) s.1
  have hbody : ∀ x rest s, I (x :: rest) s → x ≠ head i ∧ s.1.next x = some (rest.headD (head i)) ∧
      ∃ s', (if p x then (listDel x s.1).map fun m => (m, s.2 ++ [x]) else some s) = some s' ∧ I rest s' := by
    rintro x rest ⟨m₁, gone⟩ ⟨seen, hi, hgone, hm₁⟩
    have hring := hm₁.ring i
    rw [Function.update_self] at hring
    obtain ⟨hx, hnext⟩ := ring_next hring
    have hseen : ls i = (seen ++ [x]) ++ rest := by
      rw [hi, List.append_assoc]
      rfl
    refine ⟨hx, hnext, ?_⟩
    by_cases hp : p x = true
    · obtain ⟨m₂, hdel, hm₂, -⟩ := hm₁.del ⟨i, by rw [Function.update_self]; exact List.mem_append_right _ (.head rest)⟩
      refine ⟨(m₂, gone ++ [x]), ?_, seen ++ [x], hseen, ?_, ?_⟩
      · rw [if_pos hp]
        exact congrArg (Option.map _) hdel
      · rw [List.filter_append, List.filter_cons_of_pos hp, List.filter_nil]
        exact congrArg (· ++ [x]) hgone
      · rw [hm₁.erase_eq (Function.update_self ..), Function.update_idem] at hm₂
        have hout : ¬(!p x) = true := by
          rw [hp]
          exact Bool.false_ne_true
        rw [List.filter_append, List.filter_cons_of_neg (p := fun x => !p x) hout, List.filter_nil, List.append_nil]
        exact hm₂
    · refine ⟨(m₁, gone), if_neg hp, seen ++ [x], hseen, ?_, ?_⟩
      · rw [List.filter_append, List.filter_cons_of_neg hp, List.filter_nil, List.append_nil]
        exact hgone
      · have hkept : (!p x) = true := by
          rw [Bool.eq_false_iff.mpr hp]
          rfl
        rw [List.filter_append, List.filter_cons_of_pos (p := fun x => !p x) hkept, List.filter_nil, List.append_assoc]
        exact hm₁
  have hstart : I (ls i) (m, []) := by
    refine ⟨[], rfl, rfl, ?_⟩
    rw [List.filter_nil, List.nil_append, Function.update_eq_self]
    exact hls
  obtain ⟨⟨m', gone⟩, hloop, seen, hseen, hgone, hend⟩ := forEachFrom_rule hbody hfuel hstart
  rw [List.append_nil] at hseen hend
  subst hseen
  rw [listForEach, (hls.ring i).ends.1, ← hgone]
  exact ⟨m', hloop, hend⟩

/-- A loop that moves every node it meets to the end of another list. -/
theorem listForEach_moves (hls : Lists head ls m) {i j : ι} (hij : i ≠ j) (hfuel : (ls i).length < fuel) :
    ∃ m', listForEach fuel (head i) (fun x s => (listMoveTail x (head j) s.1).map fun m => (m, s.2)) (m, ()) =
        some (m', ()) ∧
      Lists head (Function.update (Function.update ls i []) j (ls j ++ ls i)) m' := by
  let I : List α → Links α × Unit → Prop := fun rest s => ∃ seen, ls i = seen ++ rest ∧
    Lists head (Function.update (Function.update ls i rest) j (ls j ++ seen)) s.1
  have hbody : ∀ x rest s, I (x :: rest) s → x ≠ head i ∧ s.1.next x = some (rest.headD (head i)) ∧
      ∃ s', (listMoveTail x (head j) s.1).map (fun m => (m, s.2)) = some s' ∧ I rest s' := by
    rintro x rest ⟨m₁, u⟩ ⟨seen, hi, hm₁⟩
    obtain ⟨ls₁, hls₁⟩ : ∃ ls₁, ls₁ = Function.update (Function.update ls i (x :: rest)) j (ls j ++ seen) := ⟨_, rfl⟩
    have hat : ls₁ i = [] ++ x :: rest := by
      rw [hls₁, Function.update_of_ne hij, Function.update_self]
      rfl
    rw [← hls₁] at hm₁
    have hring := hm₁.ring i
    rw [hat] at hring
    obtain ⟨hx, hnext⟩ := ring_next (l := []) hring
    have hin : x ∈ ls₁ i := by
      rw [hat]
      exact .head rest
    obtain ⟨m₂, hmove, hm₂⟩ := hm₁.step (c := .moveTail x j) ⟨i, hin⟩
    refine ⟨hx, hnext, (m₂, u), congrArg (Option.map _) hmove, seen ++ [x], ?_, ?_⟩
    · rw [hi, List.append_assoc]
      rfl
    · have herase := hm₁.erase_eq hat
      have hj : (ls₁ j).erase x = ls j ++ seen := by
        refine (congrFun herase j).trans ?_
        rw [Function.update_of_ne hij.symm, hls₁, Function.update_self]
      have hafter : ListCall.after ls₁ (.moveTail x j) =
          Function.update (Function.update ls i rest) j (ls j ++ (seen ++ [x])) := by
        rw [ListCall.after, hj, herase, hls₁, Function.update_comm hij.symm, Function.update_idem, Function.update_idem,
          List.append_assoc]
        rfl
      rw [hafter] at hm₂
      exact hm₂
  have hstart : I (ls i) (m, ()) := by
    refine ⟨[], rfl, ?_⟩
    rw [List.append_nil, Function.update_eq_self, Function.update_eq_self]
    exact hls
  obtain ⟨⟨m', u⟩, hloop, seen, hseen, hend⟩ := forEachFrom_rule hbody hfuel hstart
  rw [List.append_nil] at hseen
  subst hseen
  rw [listForEach, (hls.ring i).ends.1]
  exact ⟨m', hloop, hend⟩

end

theorem toNat_injective : Function.Injective Bool.toNat := by
  intro a b h
  cases a
  · cases b
    · rfl
    · cases h
  · cases b
    · cases h
    · rfl

/-- The nodes 2 and 3 are moved from one list to another. -/
theorem listForEach_moves_two : ∃ m m' : Links ℕ,
    listForEach 3 0 (fun x s => (listMoveTail x 1 s.1).map fun m => (m, s.2)) (m, ()) = some (m', ()) ∧
      m'.Ring 0 [] ∧ m'.Ring 1 [2, 3] := by
  have hempty : Lists Bool.toNat (fun _ => []) (⟨some, some⟩ : Links ℕ) := by
    exact lists_empty toNat_injective fun _ => ⟨rfl, rfl⟩
  obtain ⟨m₁, -, h₁⟩ := hempty.add (e := 3) false (Bool.forall_bool.mpr ⟨by decide, by decide⟩)
  obtain ⟨m₂, -, h₂⟩ := h₁.add (e := 2) false (Bool.forall_bool.mpr ⟨by decide, by decide⟩)
  have hfuel : [2, 3].length < 3 := by decide
  obtain ⟨m', hloop, hend⟩ := listForEach_moves h₂ Bool.false_ne_true hfuel
  exact ⟨m₂, m', hloop, hend.ring false, hend.ring true⟩

/-! ### Runs -/

/-- **`list_head` refines lists**, in every run of calls in which a node is linked in only while it is on no list and
unlinked only while it is on one: no null pointer is followed, and in the end emptiness, the successor of a node and the
loops over a list are those of the lists that the calls make. -/
theorem listHead_refines {head : ι → α} (hinj : Function.Injective head) {m₀ : Links α}
    (hstart : ∀ i, m₀.Linked (head i) (head i)) (calls : List (ListCall ι α))
    (hproper : Along (fun c ls => ((), ListCall.after ls c)) (fun ls c => c.Proper head ls) calls fun _ => []) :
    let ls := calls.foldl ListCall.after fun _ => []
    ∃ m, calls.foldlM (ListCall.exec head) m₀ = some m ∧ (∀ i, listEmpty (head i) m = (ls i).isEmpty) ∧
      (∀ i l e r, ls i = l ++ e :: r → listNext e (head i) m = some ((r ++ l).headD e)) ∧
      ∀ i fuel, (ls i).length < fuel → ∀ (f : β → α → β) (b : β),
        listForEach fuel (head i) (fun x s => some (s.1, f s.2 x)) (m, b) = some (m, (ls i).foldl f b) := by
  have hrun : ∀ (calls : List (ListCall ι α)) (ls : ι → List α) (m : Links α), Lists head ls m →
      Along (fun c ls => ((), ListCall.after ls c)) (fun ls c => c.Proper head ls) calls ls →
      ∃ m', calls.foldlM (ListCall.exec head) m = some m' ∧ Lists head (calls.foldl ListCall.after ls) m' := by
    intro calls
    induction calls with
    | nil => exact fun ls m h _ => ⟨m, rfl, h⟩
    | cons c calls ih =>
      intro ls m h hall
      obtain ⟨m₁, hm₁, hls₁⟩ := h.step hall.1
      obtain ⟨m', hm', hend⟩ := ih _ _ hls₁ hall.2
      refine ⟨m', ?_, hend⟩
      rw [List.foldlM_cons, hm₁]
      exact hm'
  obtain ⟨m, hm, hls⟩ := hrun calls _ m₀ (lists_empty hinj hstart) hproper
  refine ⟨m, hm, fun i => listEmpty_ring (hls.ring i), fun i l e r hi => ?_, fun i fuel hfuel f b => ?_⟩
  · have hring := hls.ring i
    rw [hi] at hring
    exact listNext_ring hring
  · exact listForEach_fold (hls.ring i) hfuel f b

/-- Two nodes are linked into the list of `0`, and the first one is moved to the list of `1`. -/
theorem listHead_refines_two : ∃ m : Links ℕ,
    [ListCall.add 2 false, .addTail 3 false, .move 2 true].foldlM (ListCall.exec Bool.toNat) ⟨some, some⟩ = some m ∧
      listNext 3 0 m = some 3 ∧
      listForEach 2 1 (fun x s => some (s.1, s.2 ++ [x])) (m, []) = some (m, [2]) := by
  have hstart : ∀ i, (⟨some, some⟩ : Links ℕ).Linked (Bool.toNat i) (Bool.toNat i) := fun _ => ⟨rfl, rfl⟩
  obtain ⟨m, hm, -, hnext, hloop⟩ := listHead_refines toNat_injective hstart
    [.add 2 false, .addTail 3 false, .move 2 true]
    ⟨Bool.forall_bool.mpr ⟨by decide, by decide⟩, Bool.forall_bool.mpr ⟨by decide, by decide⟩, ⟨false, .head _⟩, trivial⟩
  exact ⟨m, hm, hnext false [] 3 [] (by decide), hloop true 2 (by decide) (fun l x => l ++ [x]) []⟩

end LizardOs.Nolibc
