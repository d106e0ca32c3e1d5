import Mathlib.Data.List.Nodup
import Mathlib.Data.List.Perm.Subperm
import Mathlib.Data.List.Basic
import Mathlib.Logic.Function.Basic

/-!
# Chains in a link table

A link table is a function `next`; a node is followed while it satisfies `ok`.  `Path next ok x l y` says that
following the links from `x` goes through exactly the nodes `l`, all of them `ok`, and arrives at `y`; a chain
is a path whose end `y` is not `ok`.  The lemmas are the ones a table that is edited in place needs: paths
compose, they depend on the links of their own nodes only, a chain is determined by its head, and a chain
can be prolonged at its last node.
-/

namespace LizardOs.Lib

variable {α : Type*} (next : α → α) (ok : α → Bool)

/-- Following the links from `x` runs through the nodes `l` and arrives at `y`. -/
def Path : α → List α → α → Prop
  | x, [], y => x = y
  | x, c :: l, y => x = c ∧ ok c = true ∧ Path (next c) l y

variable {next ok}

@[simp] theorem path_nil {x y : α} : Path next ok x [] y ↔ x = y := Iff.rfl

@[simp] theorem path_cons {x c y : α} {l : List α} :
    Path next ok x (c :: l) y ↔ x = c ∧ ok c = true ∧ Path next ok (next c) l y := Iff.rfl

/-- Paths compose. -/
theorem path_append {x y : α} {l m : List α} :
    Path next ok x (l ++ m) y ↔ ∃ z, Path next ok x l z ∧ Path next ok z m y := by
  induction l generalizing x with
  | nil => simp
  | cons c l ih =>
    simp only [List.cons_append, path_cons, ih]
    constructor
    · rintro ⟨hx, hc, z, h1, h2⟩
      exact ⟨z, ⟨hx, hc, h1⟩, h2⟩
    · rintro ⟨z, ⟨hx, hc, h1⟩, h2⟩
      exact ⟨hx, hc, z, h1, h2⟩

theorem Path.ok_of_mem {x y : α} {l : List α} (h : Path next ok x l y) {c : α} (hc : c ∈ l) :
    ok c = true := by
  induction l generalizing x with
  | nil => simp at hc
  | cons a l ih =>
    rcases List.mem_cons.mp hc with rfl | hc
    · exact h.2.1
    · exact ih h.2.2 hc

theorem Path.head {x y c : α} {l : List α} (h : Path next ok x (c :: l) y) : x = c := h.1

theorem Path.ok_head {x y : α} {l : List α} (h : Path next ok x l y) (hy : ok y = true) : ok x = true := by
  cases l with
  | nil => rwa [path_nil.mp h]
  | cons a l =>
    rw [h.1]
    exact h.2.1

/-- A path that ends outside a set leaves it for a first time. -/
theorem Path.first_exit {P : α → Prop} {x y : α} {l : List α} (h : Path next ok x l y) (hok : ok y = true)
    (hy : ¬P y) : ∃ m z, Path next ok x m z ∧ m <+: l ∧ (∀ c ∈ m, P c) ∧ ok z = true ∧ ¬P z := by
  induction l generalizing x with
  | nil => exact ⟨[], y, h, List.nil_prefix, fun c hc => absurd hc List.not_mem_nil, hok, hy⟩
  | cons a l ih =>
    obtain ⟨rfl, hx, hp⟩ := h
    by_cases hin : P x
    · obtain ⟨m, z, hm, hpre, hall, hz⟩ := ih hp
      refine ⟨x :: m, z, ⟨rfl, hx, hm⟩, List.cons_prefix_cons.mpr ⟨rfl, hpre⟩, fun c hc => ?_, hz⟩
      rcases List.mem_cons.mp hc with rfl | hc
      · exact hin
      · exact hall c hc
    · exact ⟨[], x, rfl, List.nil_prefix, fun c hc => absurd hc List.not_mem_nil, hx, hin⟩

/-- A path depends on the links of its own nodes only. -/
theorem Path.congr {next' : α → α} {x y : α} {l : List α} (h : Path next ok x l y)
    (heq : ∀ c ∈ l, next' c = next c) : Path next' ok x l y := by
  induction l generalizing x with
  | nil => exact h
  | cons a l ih =>
    obtain ⟨hx, ha, hp⟩ := h
    refine ⟨hx, ha, ?_⟩
    rw [heq a (by simp)]
    exact ih hp fun c hc => heq c (by simp [hc])

/-- A chain is determined by its head. -/
theorem Path.unique {x y y' : α} {l l' : List α} (h : Path next ok x l y) (hy : ok y = false)
    (h' : Path next ok x l' y') (hy' : ok y' = false) : l = l' ∧ y = y' := by
  induction l generalizing x l' with
  | nil =>
    rw [path_nil] at h
    subst h
    cases l' with
    | nil => exact ⟨rfl, h'⟩
    | cons c l' =>
      obtain ⟨rfl, hc, -⟩ := h'
      rw [hy] at hc
      cases hc
  | cons c l ih =>
    obtain ⟨rfl, hc, hp⟩ := h
    cases l' with
    | nil =>
      rw [path_nil] at h'
      subst h'
      rw [hy'] at hc
      cases hc
    | cons d l' =>
      obtain ⟨rfl, -, hp'⟩ := h'
      obtain ⟨rfl, rfl⟩ := ih hp hp'
      exact ⟨rfl, rfl⟩

/-- **A chain meets each of its nodes once**: a node met twice would be followed for ever. -/
theorem Path.nodup {x y : α} {l : List α} (h : Path next ok x l y) (hy : ok y = false) :
    l.Nodup := by
  induction l generalizing x with
  | nil => exact List.nodup_nil
  | cons a l ih =>
    obtain ⟨rfl, ha, hp⟩ := h
    refine List.nodup_cons.mpr ⟨?_, ih hp⟩
    intro hmem
    obtain ⟨l₁, l₂, rfl⟩ := List.append_of_mem hmem
    obtain ⟨z, -, rfl, hz⟩ := path_append.mp hp
    have hall : Path next ok z (z :: (l₁ ++ z :: l₂)) y := ⟨rfl, ha, hp⟩
    have hagain : Path next ok z (z :: l₂) y := ⟨rfl, hz⟩
    have heq := (hall.unique hy hagain hy).1
    have hlen := congrArg List.length heq
    simp only [List.length_cons, List.length_append] at hlen
    omega

/-- A path that goes round can be cut short. -/
theorem Path.exists_nodup {x y : α} {l : List α} (h : Path next ok x l y) :
    ∃ m, Path next ok x m y ∧ m.Nodup := by
  induction l generalizing x with
  | nil => exact ⟨[], h, List.nodup_nil⟩
  | cons a l ih =>
    obtain ⟨rfl, ha, hp⟩ := h
    obtain ⟨m, hm, hnd⟩ := ih hp
    by_cases hmem : x ∈ m
    · obtain ⟨m₁, m₂, rfl⟩ := List.append_of_mem hmem
      obtain ⟨z, -, rfl, hz⟩ := path_append.mp hm
      exact ⟨z :: m₂, ⟨rfl, hz⟩, (List.nodup_append.mp hnd).2.1⟩
    · exact ⟨x :: m, ⟨rfl, ha, hm⟩, List.nodup_cons.mpr ⟨hmem, hnd⟩⟩

/-- The link of the last node of a path is its end. -/
theorem Path.next_last {x y c : α} {l : List α} (h : Path next ok x (l ++ [c]) y) :
    next c = y := by
  obtain ⟨z, -, hz⟩ := path_append.mp h
  obtain ⟨rfl, -, hy⟩ := hz
  exact hy

/-- Inside a path every link leads to the next node. -/
theorem Path.next_getElem {x y a b : α} {l : List α} {i : ℕ} (h : Path next ok x l y)
    (ha : l[i]? = some a) (hb : l[i + 1]? = some b) : next a = b := by
  induction l generalizing x i with
  | nil => simp at ha
  | cons c l ih =>
    obtain ⟨rfl, -, hp⟩ := h
    cases i with
    | zero =>
      cases l with
      | nil => simp at hb
      | cons d l =>
        simp only [List.getElem?_cons_zero, List.getElem?_cons_succ, Option.some.injEq] at ha hb
        subst ha hb
        exact hp.1
    | succ i => exact ih hp ha hb

/-- The link of a node of a path is another node of it, or the path's end. -/
theorem Path.next_mem {x y c : α} {l : List α} (h : Path next ok x l y) (hc : c ∈ l) :
    next c ∈ l ∨ next c = y := by
  induction l generalizing x with
  | nil => simp at hc
  | cons a l ih =>
    obtain ⟨rfl, -, hp⟩ := h
    rcases List.mem_cons.mp hc with rfl | hc
    · cases l with
      | nil => exact .inr hp
      | cons b l => exact .inl (by rw [hp.1]; simp)
    · rcases ih hp hc with hmem | hend
      · exact .inl (List.mem_cons_of_mem _ hmem)
      · exact .inr hend

/-- **Prolonging a chain.**  Linking its last node `c` to a fresh node `n` that links to `e`. -/
theorem Path.snoc {next' : α → α} {x y c n e : α} {l : List α}
    (h : Path next ok x (l ++ [c]) y) (hn : ok n = true)
    (hc : next' c = n) (hne : next' n = e)
    (hframe : ∀ a ∈ l, next' a = next a) : Path next' ok x (l ++ [c] ++ [n]) e := by
  obtain ⟨z, hl, rfl, hok, -⟩ := path_append.mp h
  rw [path_append]
  refine ⟨n, ?_, rfl, hn, hne⟩
  rw [path_append]
  exact ⟨z, hl.congr hframe, rfl, hok, hc⟩

/-- Distinct numbers below a bound are at most that many. -/
theorem nodup_length_le {l : List ℕ} {k : ℕ} (hnd : l.Nodup) (hl : ∀ c ∈ l, c < k) :
    l.length ≤ k := by
  have hsub : l ⊆ List.range k := fun c hc => List.mem_range.mpr (hl c hc)
  have hle := (hnd.subperm hsub).length_le
  rwa [List.length_range] at hle

/-- The walk from `x` that goes through `l` and stops at `y`, the first node that is not `ok` or was met before. -/
structure Trail (next : α → α) (ok : α → Bool) (x : α) (l : List α) (y : α) : Prop where
  path : Path next ok x l y
  nodup : l.Nodup
  ends : ok y = false ∨ y ∈ l

/-- In a table with finitely many nodes that are `ok` every walk stops. -/
theorem exists_trail {next : ℕ → ℕ} {ok : ℕ → Bool} {k : ℕ} (hok : ∀ c, ok c = true → c < k) (x : ℕ) :
    ∃ l y, Trail next ok x l y := by
  -- either the walk stopped, or it went through any number of distinct nodes
  have hwalk : ∀ n, (∃ l y, Trail next ok x l y) ∨ ∃ l y, Path next ok x l y ∧ l.Nodup ∧ l.length = n := by
    intro n
    induction n with
    | zero => exact .inr ⟨[], x, rfl, List.nodup_nil, rfl⟩
    | succ n ih =>
      rcases ih with hstop | ⟨l, y, hpath, hnd, hlen⟩
      · exact .inl hstop
      · by_cases hend : ok y = false ∨ y ∈ l
        · exact .inl ⟨l, y, hpath, hnd, hend⟩
        · obtain ⟨hy, hmem⟩ := not_or.mp hend
          refine .inr ⟨l ++ [y], next y, path_append.mpr ⟨y, hpath, rfl, by simpa using hy, rfl⟩, ?_, ?_⟩
          · rw [List.nodup_append]
            refine ⟨hnd, List.nodup_singleton y, fun a ha b hb hab => hmem ?_⟩
            rwa [← List.mem_singleton.mp hb, ← hab]
          · rw [List.length_append, List.length_singleton, hlen]
  rcases hwalk (k + 1) with hstop | ⟨l, y, hpath, hnd, hlen⟩
  · exact hstop
  · have hle := nodup_length_le hnd fun c hc => hok c (hpath.ok_of_mem hc)
    omega

end LizardOs.Lib
