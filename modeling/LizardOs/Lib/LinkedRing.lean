import Mathlib.Data.List.Chain
import Mathlib.Data.List.Nodup
import Mathlib.Logic.Function.Basic

/-!
# Rings of doubly linked nodes

Nodes that point to their successor and to their predecessor.  A head and the nodes of its list form a ring: each node of
the ring and the one behind it point at each other, and the last one stands before the head.

Linking a node in and unlinking one write four cells.  Both change one ring, as they change its list, and no other.
-/

namespace LizardOs.Lib

variable {α : Type*}

/-- The two pointers of each node; `none` is the null pointer. -/
structure Links (α : Type*) where
  next : α → Option α
  prev : α → Option α

namespace Links

/-- `b` stands behind `a`. -/
def Linked (m : Links α) (a b : α) : Prop := m.next a = some b ∧ m.prev b = some a

/-- The head `h` and the nodes of `xs`, in this order, are a ring. -/
structure Ring (m : Links α) (h : α) (xs : List α) : Prop where
  nodup : (h :: xs).Nodup
  chain : (h :: xs ++ [h]).IsChain m.Linked

/-! ### Rings -/

/-- A stretch of linked nodes looks at the successors of all but its last node, and at the predecessors of all but its
first one. -/
theorem chain_congr {m m' : Links α} {l : List α} (h : l.IsChain m.Linked) (hnext : ∀ a ∈ l.dropLast, m'.next a = m.next a)
    (hprev : ∀ a ∈ l.tail, m'.prev a = m.prev a) : l.IsChain m'.Linked := by
  induction l with
  | nil => exact .nil
  | cons a l ih =>
    cases l with
    | nil => exact .singleton a
    | cons b l =>
      rw [List.isChain_cons_cons] at h ⊢
      rw [List.dropLast_cons_of_ne_nil (List.cons_ne_nil b l)] at hnext
      refine ⟨⟨?_, ?_⟩, ih h.2 (fun x hx => hnext x (.tail a hx)) fun x hx => hprev x (.tail b hx)⟩
      · rw [hnext a (.head _), h.1.1]
      · rw [hprev b (.head _), h.1.2]

/-- A ring looks at its own nodes only. -/
theorem Ring.congr {m m' : Links α} {h : α} {xs : List α} (hr : m.Ring h xs) (hnext : ∀ a ∈ h :: xs, m'.next a = m.next a)
    (hprev : ∀ a ∈ h :: xs, m'.prev a = m.prev a) : m'.Ring h xs := by
  refine ⟨hr.nodup, chain_congr hr.chain (fun a ha => hnext a ?_) fun a ha => hprev a ?_⟩
  · rwa [List.dropLast_concat] at ha
  · rw [List.cons_append, List.tail_cons, List.mem_append, List.mem_singleton] at ha
    rcases ha with ha | rfl
    · exact .tail h ha
    · exact .head xs

/-- The ring around the place between two parts of the list. -/
theorem Ring.split {m : Links α} {h : α} {l r : List α} (hr : m.Ring h (l ++ r)) :
    (h :: l).IsChain m.Linked ∧ (r ++ [h]).IsChain m.Linked ∧ m.Linked (l.getLastD h) (r.headD h) := by
  have hchain := hr.chain
  rw [List.cons_append, List.append_assoc, ← List.cons_append, List.isChain_append] at hchain
  obtain ⟨hleft, hright, hmid⟩ := hchain
  refine ⟨hleft, hright, hmid _ ?_ _ ?_⟩
  · rw [List.getLast?_cons, List.getLastD_eq_getLast?]
    rfl
  · cases r
    · rfl
    · rfl

/-- Two stretches that are linked to each other. -/
theorem ring_of_parts {m : Links α} {h : α} {l r : List α} (hnodup : (h :: (l ++ r)).Nodup)
    (hleft : (h :: l).IsChain m.Linked) (hright : (r ++ [h]).IsChain m.Linked)
    (hmid : m.Linked (l.getLastD h) (r.headD h)) : m.Ring h (l ++ r) := by
  refine ⟨hnodup, ?_⟩
  rw [List.cons_append, List.append_assoc, ← List.cons_append, List.isChain_append]
  refine ⟨hleft, hright, fun a ha b hb => ?_⟩
  rw [List.getLast?_cons, Option.mem_some_iff, ← List.getLastD_eq_getLast?] at ha
  have hhead : r.headD h = b := by
    cases r with
    | nil => exact Option.mem_some_iff.mp hb
    | cons c r => exact Option.mem_some_iff.mp hb
  rw [← ha, ← hhead]
  exact hmid

/-- The neighbours in a ring of the node between two parts of its list. -/
theorem Ring.neighbours {m : Links α} {h e : α} {l r : List α} (hr : m.Ring h (l ++ e :: r)) :
    m.prev e = some (l.getLastD h) ∧ m.next e = some (r.headD h) := by
  obtain ⟨-, hright, hmid⟩ := hr.split
  refine ⟨hmid.2, ?_⟩
  cases r with
  | nil => exact (List.isChain_pair.mp hright).1
  | cons b r => exact (List.isChain_cons_cons.mp hright).1.1

/-- The neighbours of the head. -/
theorem Ring.ends {m : Links α} {h : α} {xs : List α} (hr : m.Ring h xs) :
    m.next h = some (xs.headD h) ∧ m.prev h = some (xs.getLastD h) := by
  have hfirst : m.Ring h ([] ++ xs) := hr
  have hlast : m.Ring h (xs ++ []) := by rwa [List.append_nil]
  exact ⟨hfirst.split.2.2.1, hlast.split.2.2.2⟩

theorem headD_mem (h : α) (l r : List α) : r.headD h ∈ h :: (l ++ r) := by
  cases r with
  | nil => exact .head _
  | cons x r => exact .tail h (List.mem_append_right l (.head r))

theorem getLastD_mem (h : α) (l r : List α) : l.getLastD h ∈ h :: (l ++ r) :=
  List.mem_append_left r List.getLastD_mem_cons

/-- Writing to the successors of `a` and `e` and to the predecessors of `b` and `e` leaves the stretches on both sides of
the place between `a` and `b` alone. -/
theorem chains_congr (m m' : Links α) {h e : α} {l r : List α} (hnodup : (h :: (l ++ r)).Nodup) (he : e ∉ h :: (l ++ r))
    (hnext : ∀ x, x ≠ l.getLastD h → x ≠ e → m'.next x = m.next x)
    (hprev : ∀ x, x ≠ r.headD h → x ≠ e → m'.prev x = m.prev x) :
    ((h :: l).IsChain m.Linked → (h :: l).IsChain m'.Linked) ∧
      ((r ++ [h]).IsChain m.Linked → (r ++ [h]).IsChain m'.Linked) := by
  rw [List.nodup_cons, List.nodup_append] at hnodup
  obtain ⟨hh, hl, hr, hapart⟩ := hnodup
  rw [List.mem_append, not_or] at hh
  have hne : ∀ x ∈ h :: (l ++ r), x ≠ e := fun x hx hxe => he (hxe ▸ hx)
  have hfront : (h :: l).Nodup := List.nodup_cons.mpr ⟨hh.1, hl⟩
  constructor
  · intro hchain
    refine chain_congr hchain (fun x hx => hnext x ?_ (hne x ?_)) fun x hx => hprev x ?_ (hne x ?_)
    · have hsplit : (h :: l).dropLast ++ [l.getLastD h] = h :: l := by
        rw [← List.getLast_eq_getLastD (List.cons_ne_nil h l)]
        exact List.dropLast_append_getLast (List.cons_ne_nil h l)
      rw [← hsplit, List.nodup_append] at hfront
      exact hfront.2.2 x hx _ (List.mem_singleton_self _)
    · exact List.mem_append_left r ((List.dropLast_subset _ hx))
    · cases r with
      | nil =>
        rintro rfl
        exact hh.1 hx
      | cons b r => exact hapart x hx b (.head r)
    · exact .tail h (List.mem_append_left r hx)
  · intro hchain
    refine chain_congr hchain (fun x hx => ?_) fun x hx => ?_
    · rw [List.dropLast_concat] at hx
      refine hnext x ?_ (hne x (.tail h (List.mem_append_right l hx)))
      rintro rfl
      rcases List.mem_cons.mp (List.getLastD_mem_cons (l := l) (a := h)) with heq | hin
      · exact hh.2 (heq ▸ hx)
      · exact hapart _ hin _ hx rfl
    · cases r with
      | nil => cases hx
      | cons b r =>
        rw [List.cons_append, List.tail_cons, List.mem_append, List.mem_singleton] at hx
        rcases hx with hx | rfl
        · refine hprev x ?_ (hne x (.tail h (List.mem_append_right l (.tail b hx))))
          rintro rfl
          exact (List.nodup_cons.mp hr).1 hx
        · refine hprev x ?_ (hne x (.head _))
          rintro rfl
          exact hh.2 (.head r)

/-! ### Linking and unlinking -/

variable [DecidableEq α]

def setNext (m : Links α) (a : α) (p : Option α) : Links α := { m with next := Function.update m.next a p }

def setPrev (m : Links α) (a : α) (p : Option α) : Links α := { m with prev := Function.update m.prev a p }

/-- `e` is linked in between `a` and `b`. -/
def insertBetween (m : Links α) (e a b : α) : Links α :=
  (((m.setPrev b (some e)).setNext e (some b)).setPrev e (some a)).setNext a (some e)

/-- `e` is unlinked from between `a` and `b`. -/
def bypass (m : Links α) (e a b : α) : Links α :=
  (((m.setPrev b (some a)).setNext a (some b)).setPrev e none).setNext e none

section

variable (m : Links α) (e a b x : α)

theorem insertBetween_next :
    (m.insertBetween e a b).next x = Function.update (Function.update m.next e (some b)) a (some e) x := rfl

theorem insertBetween_prev :
    (m.insertBetween e a b).prev x = Function.update (Function.update m.prev b (some e)) e (some a) x := rfl

theorem bypass_next : (m.bypass e a b).next x = Function.update (Function.update m.next a (some b)) e none x := rfl

theorem bypass_prev : (m.bypass e a b).prev x = Function.update (Function.update m.prev b (some a)) e none x := rfl

variable {e a b x}

/-- Linking a node in leaves the pointers of all nodes but the three alone. -/
theorem insertBetween_other (he : x ≠ e) (ha : x ≠ a) (hb : x ≠ b) :
    (m.insertBetween e a b).next x = m.next x ∧ (m.insertBetween e a b).prev x = m.prev x := by
  constructor
  · rw [insertBetween_next, Function.update_of_ne ha, Function.update_of_ne he]
  · rw [insertBetween_prev, Function.update_of_ne he, Function.update_of_ne hb]

theorem bypass_other (he : x ≠ e) (ha : x ≠ a) (hb : x ≠ b) :
    (m.bypass e a b).next x = m.next x ∧ (m.bypass e a b).prev x = m.prev x := by
  constructor
  · rw [bypass_next, Function.update_of_ne he, Function.update_of_ne ha]
  · rw [bypass_prev, Function.update_of_ne he, Function.update_of_ne hb]

end

/-- **Linking in.** A node that is not in the ring is linked in between two parts of the list. -/
theorem Ring.insert {m : Links α} {h e : α} {l r : List α} (hr : m.Ring h (l ++ r)) (he : e ∉ h :: (l ++ r)) :
    (m.insertBetween e (l.getLastD h) (r.headD h)).Ring h (l ++ e :: r) := by
  obtain ⟨hleft, hright, -⟩ := hr.split
  have hlast := getLastD_mem h l r
  have hhead := headD_mem h l r
  have hne : ∀ x ∈ h :: (l ++ r), x ≠ e := fun x hx hxe => he (hxe ▸ hx)
  obtain ⟨hl, hr'⟩ := chains_congr m (m.insertBetween e (l.getLastD h) (r.headD h)) hr.nodup he
    (fun x h₁ h₂ => by rw [insertBetween_next, Function.update_of_ne h₁, Function.update_of_ne h₂])
    (fun x h₁ h₂ => by rw [insertBetween_prev, Function.update_of_ne h₂, Function.update_of_ne h₁])
  refine ring_of_parts ?_ (hl hleft) ?_ ⟨?_, ?_⟩
  · have hperm : (e :: h :: (l ++ r)).Perm (h :: (l ++ e :: r)) :=
      (List.Perm.swap h e _).trans (List.Perm.cons h List.perm_middle.symm)
    exact hperm.nodup_iff.mp (List.nodup_cons.mpr ⟨he, hr.nodup⟩)
  · have hbehind : (m.insertBetween e (l.getLastD h) (r.headD h)).Linked e (r.headD h) := by
      refine ⟨?_, ?_⟩
      · rw [insertBetween_next, Function.update_of_ne (hne _ hlast).symm, Function.update_self]
      · rw [insertBetween_prev, Function.update_of_ne (hne _ hhead), Function.update_self]
    cases r with
    | nil => exact List.isChain_pair.mpr hbehind
    | cons b r => exact List.isChain_cons_cons.mpr ⟨hbehind, hr' hright⟩
  · exact Function.update_self ..
  · exact Function.update_self ..

/-- **Unlinking.** A node of the list is taken out. -/
theorem Ring.remove {m : Links α} {h e : α} {l r : List α} (hr : m.Ring h (l ++ e :: r)) :
    (m.bypass e (l.getLastD h) (r.headD h)).Ring h (l ++ r) := by
  have hperm : (h :: (l ++ e :: r)).Perm (e :: h :: (l ++ r)) :=
    (List.Perm.cons h List.perm_middle).trans (List.Perm.swap e h _)
  obtain ⟨he, hnodup⟩ := List.nodup_cons.mp (hperm.nodup_iff.mp hr.nodup)
  have hlast := getLastD_mem h l r
  have hhead := headD_mem h l r
  have hne : ∀ x ∈ h :: (l ++ r), x ≠ e := fun x hx hxe => he (hxe ▸ hx)
  obtain ⟨hl, hr'⟩ := chains_congr m (m.bypass e (l.getLastD h) (r.headD h)) hnodup he
    (fun x h₁ h₂ => by rw [bypass_next, Function.update_of_ne h₂, Function.update_of_ne h₁])
    (fun x h₁ h₂ => by rw [bypass_prev, Function.update_of_ne h₂, Function.update_of_ne h₁])
  obtain ⟨hleft, hright, -⟩ := hr.split
  refine ring_of_parts hnodup (hl hleft) (hr' hright.tail) ⟨?_, ?_⟩
  · rw [bypass_next, Function.update_of_ne (hne _ hlast), Function.update_self]
  · rw [bypass_prev, Function.update_of_ne (hne _ hhead), Function.update_self]

/-- Linking a node in leaves a ring alone that has neither the node nor its new neighbours. -/
theorem Ring.insert_elsewhere {m : Links α} {h e a b : α} {xs : List α} (hr : m.Ring h xs) (he : e ∉ h :: xs)
    (ha : a ∉ h :: xs) (hb : b ∉ h :: xs) : (m.insertBetween e a b).Ring h xs := by
  have hne : ∀ {x y : α}, x ∈ h :: xs → y ∉ h :: xs → x ≠ y := fun hx hy hxy => hy (hxy ▸ hx)
  have hother := fun x hx => m.insertBetween_other (hne hx he) (hne hx ha) (hne (x := x) hx hb)
  exact hr.congr (fun x hx => (hother x hx).1) fun x hx => (hother x hx).2

/-- Unlinking a node leaves a ring alone that has neither the node nor its neighbours. -/
theorem Ring.remove_elsewhere {m : Links α} {h e a b : α} {xs : List α} (hr : m.Ring h xs) (he : e ∉ h :: xs)
    (ha : a ∉ h :: xs) (hb : b ∉ h :: xs) : (m.bypass e a b).Ring h xs := by
  have hne : ∀ {x y : α}, x ∈ h :: xs → y ∉ h :: xs → x ≠ y := fun hx hy hxy => hy (hxy ▸ hx)
  have hother := fun x hx => m.bypass_other (hne hx he) (hne hx ha) (hne (x := x) hx hb)
  exact hr.congr (fun x hx => (hother x hx).1) fun x hx => (hother x hx).2

end Links

end LizardOs.Lib
