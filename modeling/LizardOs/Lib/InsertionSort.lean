import LizardOs.Lib.ForLoop
import Mathlib.Data.List.Basic
import Mathlib.Logic.Function.Basic

/-!
# Insertion sort in an array

An array is a function from positions.  Each round takes one element out, moves those before it that are greater up by one
and puts it into the hole.  Over a total preorder the result is sorted, a permutation, and has equivalent elements in
their old order (`insertionSort_spec`).
-/

namespace LizardOs.Lib

variable {α : Type} (gt : α → α → Bool)

/-- Move the elements before position `j` that are greater than `x` up by one, from there down, and give the hole. -/
def shiftUp (x : α) : ℕ → (ℕ → α) → ℕ × (ℕ → α)
  | 0, f => (0, f)
  | j + 1, f => if gt (f j) x = true then shiftUp x j (Function.update f (j + 1) (f j)) else (j + 1, f)

/-- One round: insert the element at `i` into those before it. -/
def insertStep (i : ℕ) (f : ℕ → α) : ℕ → α :=
  Function.update (shiftUp gt (f i) i f).2 (shiftUp gt (f i) i f).1 (f i)

/-- Sort the first `n` elements. -/
def insertionSort (n : ℕ) (f : ℕ → α) : ℕ → α := forLoop (n - 1) (fun i => insertStep gt (i + 1)) f

/-- The first `n` elements. -/
def items (f : ℕ → α) (n : ℕ) : List α := (List.range n).map f

/-- `gt` is what is left of all pairs by a relation that is total and transitive. -/
structure TotalPreorder : Prop where
  total : ∀ x y, gt x y = false ∨ gt y x = false
  trans : ∀ x y z, gt x y = false → gt y z = false → gt x z = false

/-- Neither is greater. -/
def equivalent (x y : α) : Bool := !gt x y && !gt y x

variable {gt} {f : ℕ → α} {i n : ℕ}

/-! ### Lists of elements -/

theorem items_add (f : ℕ → α) (m k : ℕ) : items f (m + k) = items f m ++ items (fun s => f (m + s)) k := by
  rw [items, items, items, List.range_add, List.map_append, List.map_map]
  rfl

theorem items_succ (f : ℕ → α) (m : ℕ) : items f (m + 1) = items f m ++ [f m] := items_add f m 1

theorem items_congr {g : ℕ → α} (h : ∀ s < n, f s = g s) : items f n = items g n :=
  List.map_congr_left fun s hs => h s (List.mem_range.mp hs)

theorem mem_items {x : α} : x ∈ items f n ↔ ∃ s < n, f s = x := by
  rw [items, List.mem_map]
  simp only [List.mem_range]

/-! ### One round -/

/-- What `shiftUp` leaves: everything from the hole on was greater, and the element before the hole was not. -/
theorem shiftUp_spec (gt : α → α → Bool) (x : α) (j : ℕ) (f : ℕ → α) :
    ∃ k f', shiftUp gt x j f = (k, f') ∧ k ≤ j ∧ (∀ s, f' s = if k < s ∧ s ≤ j then f (s - 1) else f s) ∧
      (∀ s, k ≤ s → s < j → gt (f s) x = true) ∧ ∀ s, s + 1 = k → gt (f s) x = false := by
  induction j generalizing f with
  | zero =>
    refine ⟨0, f, rfl, le_rfl, fun s => (if_neg (by omega)).symm, fun s _ hs => absurd hs (Nat.not_lt_zero s), ?_⟩
    exact fun s hs => absurd hs (Nat.succ_ne_zero s)
  | succ j ih =>
    cases hgt : gt (f j) x with
    | true =>
      obtain ⟨k, f', hrun, hk, hmoved, hgreater, hstop⟩ := ih (Function.update f (j + 1) (f j))
      have hlow : ∀ s ≤ j, Function.update f (j + 1) (f j) s = f s := fun s hs => Function.update_of_ne (by omega) _ _
      refine ⟨k, f', ?_, by omega, fun s => ?_, fun s hks hs => ?_, fun s hs => ?_⟩
      · rw [shiftUp, if_pos hgt, hrun]
      · rw [hmoved]
        by_cases hs : k < s ∧ s ≤ j
        · rw [if_pos hs, if_pos ⟨hs.1, by omega⟩, hlow _ (by omega)]
        · rw [if_neg hs]
          by_cases hlast : s = j + 1
          · rw [hlast, Function.update_self, if_pos ⟨by omega, le_rfl⟩, Nat.add_sub_cancel]
          · rw [Function.update_of_ne hlast, if_neg (by omega)]
      · by_cases hlast : s = j
        · rw [hlast]
          exact hgt
        · have hsj := hgreater s hks (by omega)
          rwa [hlow s (by omega)] at hsj
      · have hsk := hstop s hs
        rwa [hlow s (by omega)] at hsk
    | false =>
      refine ⟨j + 1, f, ?_, le_rfl, fun s => (if_neg (by omega)).symm, fun s hks hs => by omega, fun s hs => ?_⟩
      · rw [shiftUp, if_neg (by rw [hgt]; exact Bool.false_ne_true)]
      · rw [Nat.succ.inj hs]
        exact hgt

/-- A round leaves what is behind the element alone. -/
theorem insertStep_behind (gt : α → α → Bool) (f : ℕ → α) {s : ℕ} (hs : i < s) : insertStep gt i f s = f s := by
  obtain ⟨k, f', hrun, hk, hmoved, -, -⟩ := shiftUp_spec gt (f i) i f
  rw [insertStep, hrun, Function.update_of_ne (by omega)]
  exact (hmoved s).trans (if_neg (by omega))

/-- A round puts the element between those that are not greater and those that are. -/
theorem items_insertStep (gt : α → α → Bool) (f : ℕ → α) (i : ℕ) :
    ∃ l₁ l₂, items f i = l₁ ++ l₂ ∧ items (insertStep gt i f) (i + 1) = l₁ ++ f i :: l₂ ∧
      (∀ y ∈ l₂, gt y (f i) = true) ∧ ∀ y ∈ l₁.getLast?, gt y (f i) = false := by
  obtain ⟨k, f', hrun, hk, hmoved, hgreater, hstop⟩ := shiftUp_spec gt (f i) i f
  obtain ⟨d, rfl⟩ := Nat.exists_eq_add_of_le hk
  have hstep : insertStep gt (k + d) f = Function.update f' k (f (k + d)) := by rw [insertStep, hrun]
  have hfirst : items (insertStep gt (k + d) f) k = items f k :=
    items_congr fun s hs => by rw [hstep, Function.update_of_ne (by omega), hmoved, if_neg (by omega)]
  have hlast : items (fun s => insertStep gt (k + d) f (k + 1 + s)) d = items (fun s => f (k + s)) d :=
    items_congr fun s hs => by
      rw [hstep, Function.update_of_ne (by omega), hmoved, if_pos (by omega)]
      exact congrArg f (by omega)
  refine ⟨items f k, items (fun s => f (k + s)) d, items_add f k d, ?_, fun y hy => ?_, fun y hy => ?_⟩
  · rw [Nat.add_right_comm, items_add, items_succ, hfirst, hlast, hstep, Function.update_self, List.append_assoc]
    rfl
  · obtain ⟨s, hs, rfl⟩ := mem_items.mp hy
    exact hgreater (k + s) (by omega) (by omega)
  · cases k with
    | zero => cases hy
    | succ k =>
      rw [items_succ, List.getLast?_concat] at hy
      cases hy
      exact hstop k rfl

/-! ### All rounds -/

theorem equivalent_iff {x y : α} : equivalent gt x y = true ↔ gt x y = false ∧ gt y x = false := by
  rw [equivalent, Bool.and_eq_true, Bool.not_eq_true', Bool.not_eq_true']

/-- An element put in behind everything that is not greater. -/
theorem sorted_insert (h : TotalPreorder gt) {l₁ l₂ : List α} {x : α} (hsorted : (l₁ ++ l₂).Pairwise (gt · · = false))
    (hbefore : ∀ y ∈ l₁.getLast?, gt y x = false) (hbehind : ∀ y ∈ l₂, gt y x = true) :
    (l₁ ++ x :: l₂).Pairwise (gt · · = false) := by
  obtain ⟨h₁, h₂, hcross⟩ := List.pairwise_append.mp hsorted
  have hlow : ∀ y ∈ l₁, gt y x = false := by
    intro y hy
    rcases List.eq_nil_or_concat' l₁ with rfl | ⟨l, z, rfl⟩
    · exact absurd hy List.not_mem_nil
    · have hz : gt z x = false := hbefore z (by rw [List.getLast?_concat]; rfl)
      rcases List.mem_append.mp hy with hyl | hyz
      · have hyz := (List.pairwise_append.mp h₁).2.2 y hyl z (List.mem_singleton_self z)
        exact h.trans y z x hyz hz
      · rw [List.mem_singleton.mp hyz]
        exact hz
  have hhigh : ∀ y ∈ l₂, gt x y = false := by
    intro y hy
    exact (h.total x y).resolve_right (by rw [hbehind y hy]; exact Bool.false_ne_true.symm)
  refine List.pairwise_append.mpr ⟨h₁, List.pairwise_cons.mpr ⟨hhigh, h₂⟩, fun y hy z hz => ?_⟩
  rcases List.mem_cons.mp hz with rfl | hz
  · exact hlow y hy
  · exact hcross y hy z hz

/-- An element put in before elements that are greater keeps the order of those that are equivalent. -/
theorem filter_insert (h : TotalPreorder gt) (z : α) {l₁ l₂ : List α} {x : α} (hbehind : ∀ y ∈ l₂, gt y x = true) :
    (l₁ ++ x :: l₂).filter (equivalent gt z) = (l₁ ++ l₂ ++ [x]).filter (equivalent gt z) := by
  have hcons : (x :: l₂).filter (equivalent gt z) = (l₂ ++ [x]).filter (equivalent gt z) := by
    cases hx : equivalent gt z x with
    | false =>
      have hneg : ¬equivalent gt z x = true := by
        rw [hx]
        exact Bool.false_ne_true
      rw [List.filter_cons_of_neg hneg, List.filter_append, List.filter_cons_of_neg hneg, List.filter_nil,
        List.append_nil]
    | true =>
      have hnone : l₂.filter (equivalent gt z) = [] := by
        rw [List.filter_eq_nil_iff]
        intro y hy hyz
        obtain ⟨-, hyz⟩ := equivalent_iff.mp hyz
        have hyx := h.trans y z x hyz (equivalent_iff.mp hx).1
        rw [hbehind y hy] at hyx
        cases hyx
      rw [List.filter_cons_of_pos hx, List.filter_append, List.filter_cons_of_pos hx, hnone, List.filter_nil,
        List.nil_append]
  rw [List.filter_append, hcons, ← List.filter_append, List.append_assoc]

/-- **Insertion sort** over a total preorder: the elements are permuted and sorted, and those that are equivalent to each
other keep their order. -/
theorem insertionSort_spec (h : TotalPreorder gt) (n : ℕ) (f : ℕ → α) :
    (items (insertionSort gt n f) n).Perm (items f n) ∧
      (items (insertionSort gt n f) n).Pairwise (gt · · = false) ∧
      ∀ z, (items (insertionSort gt n f) n).filter (equivalent gt z) = (items f n).filter (equivalent gt z) := by
  rcases Nat.eq_zero_or_pos n with rfl | hn
  · exact ⟨.refl _, .nil, fun _ => rfl⟩
  · have hloop : (items (insertionSort gt n f) n).Perm (items f n) ∧
        (items (insertionSort gt n f) (n - 1 + 1)).Pairwise (gt · · = false) ∧
        ∀ z, (items (insertionSort gt n f) n).filter (equivalent gt z) = (items f n).filter (equivalent gt z) := by
      refine forLoop_invariant (I := fun i g => (items g n).Perm (items f n) ∧
          (items g (i + 1)).Pairwise (gt · · = false) ∧
          ∀ z, (items g n).filter (equivalent gt z) = (items f n).filter (equivalent gt z))
        ⟨.refl _, List.pairwise_singleton _ _, fun _ => rfl⟩ ?_
      rintro i g hi ⟨hperm, hsorted, hstable⟩
      obtain ⟨l₁, l₂, hold, hnew, hbehind, hbefore⟩ := items_insertStep gt g (i + 1)
      -- what is behind the element stays as it is
      have hrest : ∃ rest, items g n = l₁ ++ l₂ ++ [g (i + 1)] ++ rest ∧
          items (insertStep gt (i + 1) g) n = l₁ ++ g (i + 1) :: l₂ ++ rest := by
        obtain ⟨d, rfl⟩ := Nat.exists_eq_add_of_le (show i + 1 + 1 ≤ n by omega)
        refine ⟨items (fun s => g (i + 1 + 1 + s)) d, ?_, ?_⟩
        · rw [items_add, items_succ, hold]
        · rw [items_add, hnew]
          exact congrArg _ (items_congr fun s _ => insertStep_behind gt g (by omega))
      obtain ⟨rest, hall, hall'⟩ := hrest
      refine ⟨?_, ?_, fun z => ?_⟩
      · have hswap : (l₁ ++ g (i + 1) :: l₂).Perm (l₁ ++ l₂ ++ [g (i + 1)]) :=
          List.perm_middle.trans (List.perm_append_singleton _ _).symm
        rw [hall']
        rw [hall] at hperm
        exact (hswap.append_right rest).trans hperm
      · rw [hnew]
        exact sorted_insert h (hold ▸ hsorted) hbefore hbehind
      · rw [← hstable z, hall, hall', List.filter_append, filter_insert h z hbehind, ← List.filter_append]
    rwa [Nat.sub_add_cancel hn] at hloop

end LizardOs.Lib
