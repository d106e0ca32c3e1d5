import Mathlib.Data.List.Basic
import Mathlib.Data.List.Nodup
import Mathlib.Data.List.TakeWhile

/-!
# Walking a ring from one of its entries

`rotateFrom c l` lists the entries of `l` after `c` and then those before it: the order in which a walk around
the ring meets the others.  `NotBefore l a b` says that the walk `l` meets `b`, and not `a` earlier.  It survives
insertions of other entries and removals, and a step of the walk to its first entry of some kind.
-/

namespace LizardOs.Lib

variable {α : Type*}

/-! ### What comes first -/

/-- The walk meets `b`, and does not meet `a` before it. -/
def NotBefore (l : List α) (a b : α) : Prop := ∃ p q, l = p ++ b :: q ∧ a ∉ p

theorem notBefore_of_not_mem {l : List α} {a b : α} (hb : b ∈ l) (ha : a ∉ l) : NotBefore l a b := by
  obtain ⟨p, q, hl⟩ := List.append_of_mem hb
  refine ⟨p, q, hl, fun hp => ha ?_⟩
  rw [hl]
  exact List.mem_append_left _ hp

theorem NotBefore.mem {l : List α} {a b : α} (h : NotBefore l a b) : b ∈ l := by
  obtain ⟨p, q, hl, -⟩ := h
  rw [hl]
  exact List.mem_append_right _ (List.mem_cons_self)

theorem NotBefore.insert {p q : List α} {a b x : α} (h : NotBefore (p ++ q) a b) (hx : a ≠ x) :
    NotBefore (p ++ x :: q) a b := by
  obtain ⟨u, v, huv, ha⟩ := h
  rcases List.append_eq_append_iff.mp huv with ⟨s, hp, hq⟩ | ⟨s, hp, hs⟩
  · refine ⟨p ++ x :: s, v, ?_, ?_⟩
    · rw [hq]
      simp
    · rw [hp] at ha
      simp only [List.mem_append, List.mem_cons, not_or] at ha ⊢
      exact ⟨ha.1, hx, ha.2⟩
  · cases s with
    | nil =>
      rw [List.nil_append] at hs
      rw [List.append_nil] at hp
      refine ⟨p ++ [x], v, ?_, ?_⟩
      · rw [← hs]
        simp
      · rw [← hp] at ha
        simp only [List.mem_append, List.mem_singleton, not_or]
        exact ⟨ha, hx⟩
    | cons y s =>
      obtain ⟨rfl, rfl⟩ := List.cons.inj hs
      exact ⟨u, s ++ x :: q, by rw [hp]; simp, ha⟩

theorem NotBefore.filter {l : List α} {a b : α} (h : NotBefore l a b) {P : α → Bool} (hb : P b = true) :
    NotBefore (l.filter P) a b := by
  obtain ⟨p, q, hl, ha⟩ := h
  refine ⟨p.filter P, q.filter P, ?_, fun hp => ha (List.mem_of_mem_filter hp)⟩
  rw [hl, List.filter_append, List.filter_cons_of_pos hb]

/-! ### Rings -/

variable [DecidableEq α]

/-- The entries after the first `c`. -/
def afterOf (c : α) : List α → List α
  | [] => []
  | x :: l => if x = c then l else afterOf c l

/-- The entries before the first `c`. -/
def beforeOf (c : α) : List α → List α
  | [] => []
  | x :: l => if x = c then [] else x :: beforeOf c l

/-- The entries of a ring in the order a walk from `c` meets them. -/
def rotateFrom (c : α) (l : List α) : List α := afterOf c l ++ beforeOf c l

theorem beforeOf_append_afterOf {c : α} {l : List α} (h : c ∈ l) :
    l = beforeOf c l ++ c :: afterOf c l := by
  induction l with
  | nil => cases h
  | cons x l ih =>
    by_cases hx : x = c
    · subst hx
      simp [beforeOf, afterOf]
    · have hc : c ∈ l := by
        rcases List.mem_cons.mp h with h | h
        · exact absurd h.symm hx
        · exact h
      simp only [beforeOf, afterOf, if_neg hx, List.cons_append]
      rw [← ih hc]

theorem split_at {c : α} {p q : List α} (h : c ∉ p) :
    beforeOf c (p ++ c :: q) = p ∧ afterOf c (p ++ c :: q) = q := by
  induction p with
  | nil => simp [beforeOf, afterOf]
  | cons x p ih =>
    obtain ⟨hx, hp⟩ := not_or.mp (fun hc => h (List.mem_cons.mpr hc))
    have hne : ¬x = c := fun hxc => hx hxc.symm
    obtain ⟨h1, h2⟩ := ih hp
    simp only [List.cons_append, beforeOf, afterOf, if_neg hne, h1, h2, and_self]

theorem rotateFrom_append {c : α} {p q : List α} (h : c ∉ p) :
    rotateFrom c (p ++ c :: q) = q ++ p := by
  rw [rotateFrom, (split_at h).1, (split_at h).2]

/-- The walk meets every entry but the one it starts from. -/
theorem mem_rotateFrom {c x : α} {l : List α} (hl : l.Nodup) (hc : c ∈ l) :
    x ∈ rotateFrom c l ↔ x ∈ l ∧ x ≠ c := by
  have hsplit := beforeOf_append_afterOf hc
  have hnodup := hl
  rw [hsplit, List.nodup_middle, List.nodup_cons, List.mem_append] at hnodup
  have hmem : x ∈ l ↔ x ∈ beforeOf c l ∨ x = c ∨ x ∈ afterOf c l := by
    conv_lhs => rw [hsplit]
    rw [List.mem_append, List.mem_cons]
  rw [rotateFrom, List.mem_append, hmem]
  constructor
  · intro hx
    refine ⟨?_, ?_⟩
    · rcases hx with hx | hx
      · exact .inr (.inr hx)
      · exact .inl hx
    · intro hxc
      subst hxc
      exact hnodup.1 (Or.symm hx)
  · intro ⟨hx, hne⟩
    rcases hx with hx | hx | hx
    · exact .inr hx
    · exact absurd hx hne
    · exact .inl hx

/-- A new entry at the front of the ring comes up between the end and the front of the walk. -/
theorem rotateFrom_cons {c x : α} {l : List α} (hx : x ≠ c) :
    rotateFrom c (x :: l) = afterOf c l ++ x :: beforeOf c l := by
  simp only [rotateFrom, afterOf, beforeOf, if_neg hx]

/-- Removing other entries of the ring removes them from the walk. -/
theorem rotateFrom_filter {c : α} {l : List α} (P : α → Bool) (hc : P c = true) :
    rotateFrom c (l.filter P) = (rotateFrom c l).filter P := by
  have hboth : beforeOf c (l.filter P) = (beforeOf c l).filter P ∧
      afterOf c (l.filter P) = (afterOf c l).filter P := by
    induction l with
    | nil => exact ⟨rfl, rfl⟩
    | cons x l ih =>
      by_cases hx : x = c
      · subst hx
        simp [beforeOf, afterOf, hc]
      · cases hp : P x with
        | true =>
          simp only [List.filter_cons_of_pos hp, beforeOf, afterOf, if_neg hx, ih.1, ih.2, and_self]
        | false =>
          have hp' : ¬P x = true := by simp [hp]
          simp only [List.filter_cons_of_neg hp', beforeOf, afterOf, if_neg hx, ih.1, ih.2, and_self]
  rw [rotateFrom, rotateFrom, List.filter_append, hboth.1, hboth.2]

/-- The walk of an entry the first walk meets: what lay behind it, then the start, then what lay before it. -/
theorem rotateFrom_of_rotateFrom {c n : α} {l p q : List α} (hl : l.Nodup) (hc : c ∈ l)
    (h : rotateFrom c l = p ++ n :: q) : rotateFrom n l = q ++ c :: p := by
  have hsplit := beforeOf_append_afterOf hc
  have hnodup := hl
  rw [hsplit] at hnodup
  rw [hsplit]
  rw [rotateFrom] at h
  generalize beforeOf c l = b at h hnodup
  generalize afterOf c l = a at h hnodup
  rcases List.append_eq_append_iff.mp h with ⟨s, hp, hb⟩ | ⟨s, ha, hs⟩
  · -- the entry lies before the start of the walk
    subst hp hb
    have hn : n ∉ s := by
      rw [List.append_assoc, List.cons_append, List.nodup_middle, List.nodup_cons] at hnodup
      exact fun hns => hnodup.1 (List.mem_append_left _ hns)
    rw [List.append_assoc, List.cons_append, rotateFrom_append hn]
    simp
  · cases s with
    | nil =>
      rw [List.nil_append] at hs
      rw [List.append_nil] at ha
      have hn : n ∉ ([] : List α) := List.not_mem_nil
      rw [← hs, ha, ← List.nil_append (n :: q ++ c :: p), List.cons_append, rotateFrom_append hn,
        List.append_nil]
    | cons y s =>
      -- the entry lies behind it
      obtain ⟨rfl, rfl⟩ := List.cons.inj hs
      subst ha
      have hl' : b ++ c :: (p ++ n :: s) = (b ++ c :: p) ++ n :: s := by simp
      rw [hl', List.nodup_middle, List.nodup_cons] at hnodup
      rw [hl', rotateFrom_append fun hn => hnodup.1 (List.mem_append_left _ hn)]
      simp

/-- **A walk that moves on** to an entry `n`, and meets `b` only later, does not move to `a`, and meets `b` from
`n` before it meets `a` again. -/
theorem NotBefore.move {l p q : List α} {c n a b : α} (h : NotBefore (rotateFrom c l) a b) (hl : l.Nodup)
    (hc : c ∈ l) (hsplit : rotateFrom c l = p ++ n :: q) (hbp : b ∉ p) (hbn : n ≠ b) :
    n ≠ a ∧ NotBefore (rotateFrom n l) a b := by
  obtain ⟨u, v, huv, ha⟩ := h
  rw [hsplit] at huv
  rcases List.append_eq_append_iff.mp huv with ⟨s, hu, hs⟩ | ⟨s, hp, hs⟩
  · cases s with
    | nil => exact absurd (List.cons.inj hs).1 hbn
    | cons y s =>
      obtain ⟨rfl, rfl⟩ := List.cons.inj hs
      subst hu
      simp only [List.mem_append, List.mem_cons, not_or] at ha
      refine ⟨fun hna => ha.2.1 hna.symm, s, v ++ c :: p, ?_, ha.2.2⟩
      rw [rotateFrom_of_rotateFrom hl hc hsplit]
      simp
  · cases s with
    | nil => exact absurd (List.cons.inj hs).1.symm hbn
    | cons y s =>
      obtain ⟨rfl, -⟩ := List.cons.inj hs
      exact absurd (by rw [hp]; simp) hbp

/-! ### How long the walk takes -/

theorem length_rotateFrom {c : α} {l : List α} (hc : c ∈ l) : (rotateFrom c l).length + 1 = l.length := by
  have hsplit := congrArg List.length (beforeOf_append_afterOf hc)
  rw [List.length_append, List.length_cons] at hsplit
  rw [rotateFrom, List.length_append]
  omega

/-- A new entry delays the others by one place at most. -/
theorem idxOf_insert_le {p q : List α} {b x : α} : (p ++ x :: q).idxOf b ≤ (p ++ q).idxOf b + 1 := by
  induction p with
  | nil =>
    by_cases hx : x = b
    · simp [hx]
    · simp [List.idxOf_cons_ne _ hx]
  | cons y p ih =>
    by_cases hy : y = b
    · simp [hy]
    · simp only [List.cons_append, List.idxOf_cons_ne _ hy]
      omega

/-- Removing other entries delays none. -/
theorem idxOf_filter_le {l : List α} {b : α} {P : α → Bool} (hb : P b = true) :
    (l.filter P).idxOf b ≤ l.idxOf b := by
  induction l with
  | nil => simp
  | cons y l ih =>
    by_cases hy : y = b
    · subst hy
      simp [hb]
    · cases hp : P y with
      | true =>
        simp only [List.filter_cons_of_pos hp, List.idxOf_cons_ne _ hy]
        omega
      | false =>
        have hp' : ¬P y = true := by simp [hp]
        simp only [List.filter_cons_of_neg hp', List.idxOf_cons_ne _ hy]
        omega

/-- A walk that moves on to an entry before `b` comes nearer to `b`. -/
theorem idxOf_move_lt {l p q : List α} {c n b : α} (hl : l.Nodup) (hc : c ∈ l) (hsplit : rotateFrom c l = p ++ n :: q)
    (hb : b ∈ rotateFrom c l) (hbp : b ∉ p) (hbn : n ≠ b) :
    b ∈ rotateFrom n l ∧ (rotateFrom n l).idxOf b < (rotateFrom c l).idxOf b := by
  have hbq : b ∈ q := by
    rw [hsplit, List.mem_append, List.mem_cons] at hb
    rcases hb with hb | hb | hb
    · exact absurd hb hbp
    · exact absurd hb.symm hbn
    · exact hb
  rw [rotateFrom_of_rotateFrom hl hc hsplit, hsplit, List.idxOf_append_of_mem hbq, List.idxOf_append_of_notMem hbp,
    List.idxOf_cons_ne _ hbn]
  exact ⟨List.mem_append_left _ hbq, by omega⟩

end LizardOs.Lib
